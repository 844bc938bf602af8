import Spanbarn.Ledger.Tally
import Spanbarn.Sampling.MinuteFloor
import Spanbarn.Schemes.Run

/-! Buffered traces, and the count of the clean traces the buffer drops.

    A trace kept as a sample of its operation carries the drops since the previous one: its weight is one
    plus the drops. When no sample comes for `carryWait`, the last dropped trace that fits the budget is
    stored in their place, with the number of drops as its weight. -/

namespace Spanbarn.Ingest
open List Spanbarn.Model Spanbarn.Schemes Spanbarn.Ledger Spanbarn.Sampling

/-- `bufferedTrace`. `rootSeen` is when the root span arrived. -/
structure BufferedTrace where
  id : String
  spans : List SpanRecord := []
  hasError : Bool := false
  rootOp : String := ""
  projectID : ℤ
  firstSeen : ℤ
  rootSeen : Option ℤ := none
  sacrificial : Bool := false
  seq : ℕ
  droppedAs : Column := .accepted
  deriving DecidableEq, Repr

def BufferedTrace.hasRoot (tr : BufferedTrace) : Bool := tr.rootSeen.isSome

/-- `stampWeight`. -/
def BufferedTrace.stampWeight (tr : BufferedTrace) (w : ℕ) : BufferedTrace :=
  { tr with spans := tr.spans.map (·.weighted w) }

/-- The operation a trace is counted under: its root span's name, or its first span's. -/
def BufferedTrace.traceOp (tr : BufferedTrace) : String :=
  if tr.rootOp ≠ "" then tr.rootOp
  else match tr.spans with
    | [] => tr.rootOp
    | s :: _ => s.name

def carryWait : Duration := Duration.hour

/-- Budget of held spans when the buffer has no cap. -/
def defaultMaxHeldSpans : ℕ := 10000

/-- Project and root operation. -/
abbrev CarryKey := ℤ × String

/-- The uncarried drops of one operation, and a dropped trace to store if no sample comes. -/
structure CarryEntry where
  dropped : ℕ := 0
  held : Option BufferedTrace := none
  since : ℤ
  deriving DecidableEq, Repr

structure CarryTally where
  m : Dict CarryKey CarryEntry := ∅
  heldSpans : ℤ := 0
  maxHeldSpans : ℕ
  carriedTotal : ℕ := 0
  uncarriedTotal : ℕ := 0

def newCarryTally (maxBufferedSpans : ℕ) : CarryTally :=
  let limit := maxBufferedSpans / 5
  { maxHeldSpans := if limit = 0 then defaultMaxHeldSpans else limit }

/-- Spans of the trace an entry holds. -/
def CarryEntry.heldLen (e : CarryEntry) : ℤ :=
  match e.held with
  | some h => h.spans.length
  | none => 0

/-- Count a dropped trace, and hold it when it fits the budget. A trace whose root never came is not
    counted. -/
def CarryTally.drop (c : CarryTally) (tr : BufferedTrace) (now : ℤ) : CarryTally :=
  if tr.spans.isEmpty || !tr.hasRoot then c
  else
    let k := (tr.projectID, tr.traceOp)
    let e := (c.m.lookup k).getD { since := now }
    let e' := { e with dropped := e.dropped + 1 }
    if c.heldSpans - e.heldLen + tr.spans.length ≤ c.maxHeldSpans then
      { c with
        heldSpans := c.heldSpans + (tr.spans.length - e.heldLen)
        m := c.m.insert k { e' with held := some tr } }
    else { c with m := c.m.insert k e' }

/-- An entry goes, and its held spans return to the budget. -/
def CarryTally.release (c : CarryTally) (k : CarryKey) (e : CarryEntry) : CarryTally :=
  { c with m := c.m.erase k, heldSpans := c.heldSpans - e.heldLen }

/-- The drops a kept sample of the operation carries. -/
def CarryTally.take (c : CarryTally) (projectID : ℤ) (op : String) : ℕ × CarryTally :=
  match c.m.lookup (projectID, op) with
  | none => (0, c)
  | some e =>
    let c := c.release (projectID, op) e
    (e.dropped, { c with carriedTotal := c.carriedTotal + e.dropped })

/-- The loop of `expired`. Go walks the map in no fixed order; only the order of the carriers
    depends on it. -/
def CarryTally.expireFrom (now : ℤ) (all : Bool) :
    CarryTally → List ((_ : CarryKey) × CarryEntry) → List BufferedTrace × CarryTally
  | c, [] => ([], c)
  | c, ⟨k, e⟩ :: rest =>
    if !all && decide (now - e.since < carryWait) then c.expireFrom now all rest
    else
      let c := c.release k e
      match e.held with
      | none => { c with uncarriedTotal := c.uncarriedTotal + e.dropped }.expireFrom now all rest
      | some h =>
        let r := { c with carriedTotal := c.carriedTotal + e.dropped }.expireFrom now all rest
        (h.stampWeight e.dropped :: r.1, r.2)

/-- The held traces of every operation whose drops have waited, each with its drops as weight. -/
def CarryTally.expired (c : CarryTally) (now : ℤ) (all : Bool) : List BufferedTrace × CarryTally :=
  c.expireFrom now all c.m.entries

/-! ### What holds of every trace the tally holds -/

section held
variable {P : BufferedTrace → Prop} {c : CarryTally}

/-- `P` holds of every held trace. -/
def CarryTally.AllHeld (P : BufferedTrace → Prop) (c : CarryTally) : Prop :=
  ∀ k e h, c.m.lookup k = some e → e.held = some h → P h

theorem allHeld_new (n : ℕ) : (newCarryTally n).AllHeld P := by
  intro k e h hk
  simp [newCarryTally] at hk

theorem CarryTally.AllHeld.release (hc : c.AllHeld P) (k : CarryKey) (e : CarryEntry) :
    (c.release k e).AllHeld P :=
  fun k' e' h hk hh => hc k' e' h (lookup_of_erase hk).2 hh

theorem CarryTally.AllHeld.drop (hc : c.AllHeld P) {tr : BufferedTrace} (htr : P tr) (now : ℤ) :
    (c.drop tr now).AllHeld P := by
  -- the entry of the dropped trace holds that trace, or what it held before
  have hold : ∀ e : CarryEntry, e = (c.m.lookup (tr.projectID, tr.traceOp)).getD { since := now } →
      ∀ h, e.held = some h → P h := by
    rintro e rfl h hh
    cases hl : c.m.lookup (tr.projectID, tr.traceOp) with
    | none => rw [hl] at hh; cases hh
    | some e => rw [hl] at hh; exact hc _ e h hl hh
  intro k e h hk hh
  unfold CarryTally.drop at hk
  split at hk
  · exact hc k e h hk hh
  · simp only at hk
    split at hk
    · rcases lookup_of_insert hk with ⟨rfl, rfl⟩ | ⟨-, hk⟩
      · obtain rfl : tr = h := by simpa using hh
        exact htr
      · exact hc k e h hk hh
    · rcases lookup_of_insert hk with ⟨rfl, rfl⟩ | ⟨-, hk⟩
      · exact hold _ rfl h hh
      · exact hc k e h hk hh

theorem CarryTally.AllHeld.take (hc : c.AllHeld P) (projectID : ℤ) (op : String) :
    (c.take projectID op).2.AllHeld P := by
  unfold CarryTally.take
  cases c.m.lookup (projectID, op) with
  | none => exact hc
  | some e => exact hc.release (projectID, op) e

/-- Carriers are held traces with a weight stamped on; what stays held was held. -/
theorem CarryTally.AllHeld.expireFrom (now : ℤ) (all : Bool) :
    ∀ (rest : List ((_ : CarryKey) × CarryEntry)) {c : CarryTally}, c.AllHeld P →
      (∀ e ∈ rest, ∀ h, e.2.held = some h → P h) →
      (c.expireFrom now all rest).2.AllHeld P ∧
        ∀ tr ∈ (c.expireFrom now all rest).1, ∃ h w, P h ∧ tr = h.stampWeight w
  | [], c, hc, _ => ⟨hc, forall_mem_nil _⟩
  | ⟨k, e⟩ :: rest, c, hc, hrest => by
    have htail : ∀ x ∈ rest, ∀ h, x.2.held = some h → P h :=
      fun x hx => hrest x (mem_cons_of_mem _ hx)
    rw [CarryTally.expireFrom]
    split
    · exact AllHeld.expireFrom now all rest hc htail
    · cases hh : e.held with
      | none => exact AllHeld.expireFrom now all rest (hc.release k e) htail
      | some h =>
        obtain ⟨h1, h2⟩ := AllHeld.expireFrom now all rest
          (c := { c.release k e with carriedTotal := (c.release k e).carriedTotal + e.dropped })
          (hc.release k e) htail
        refine ⟨h1, fun tr htr => ?_⟩
        rcases mem_cons.mp htr with rfl | htr
        · exact ⟨h, e.dropped, hrest _ mem_cons_self h hh, rfl⟩
        · exact h2 tr htr

theorem CarryTally.AllHeld.expired (hc : c.AllHeld P) (now : ℤ) (all : Bool) :
    (c.expired now all).2.AllHeld P ∧
      ∀ tr ∈ (c.expired now all).1, ∃ h w, P h ∧ tr = h.stampWeight w :=
  AllHeld.expireFrom now all _ hc fun e he h hh => hc e.1 e.2 h (AList.mem_lookup_iff.mpr he) hh

end held

/-! ### The accounts of the tally over its calls -/

/-- Whether `drop` counts the trace. -/
def BufferedTrace.counted (tr : BufferedTrace) : Bool := !tr.spans.isEmpty && tr.hasRoot

/-- The weight stamped on a trace, read from its first span. -/
def BufferedTrace.weight (tr : BufferedTrace) : ℤ :=
  match tr.spans with
  | [] => 0
  | r :: _ => r.sampleWeight

/-- A tally in use, with what its calls were given and what they returned. -/
structure CarryUse where
  tally : CarryTally
  given : List BufferedTrace := []
  taken : List ℕ := []
  carriers : List BufferedTrace := []

/-- The calls of the tally. `expired` comes with the order in which the map is walked. -/
inductive CarryCall where
  | drop (tr : BufferedTrace) (now : ℤ)
  | take (projectID : ℤ) (op : String)
  | expired (now : ℤ) (all : Bool) (order : List ((_ : CarryKey) × CarryEntry))

def CarryUse.step (s : CarryUse) : CarryCall → Option CarryUse
  | .drop tr now => some { s with tally := s.tally.drop tr now, given := tr :: s.given }
  | .take projectID op =>
    let r := s.tally.take projectID op
    some { s with tally := r.2, taken := r.1 :: s.taken }
  | .expired now all order =>
    if order.Perm s.tally.m.entries then
      let r := s.tally.expireFrom now all order
      some { s with tally := r.2, carriers := r.1 ++ s.carriers }
    else none

/-- The accounts of a tally with the budget `budget` that was given `given` traces to count and gave out
    the drops `out`. -/
structure CarryTally.Accounts (c : CarryTally) (budget given : ℕ) (out : ℤ) : Prop where
  budget : c.maxHeldSpans = budget
  held : c.heldSpans = total CarryEntry.heldLen c.m
  within : c.heldSpans ≤ c.maxHeldSpans
  drops : given = c.carriedTotal + c.uncarriedTotal + total CarryEntry.dropped c.m
  carried : out = c.carriedTotal
  holds : c.AllHeld fun tr => tr.spans ≠ []

section accounts
variable {c : CarryTally} {budget given : ℕ} {out : ℤ} {k : CarryKey} {e : CarryEntry}

theorem CarryEntry.heldLen_nonneg (e : CarryEntry) : 0 ≤ e.heldLen := by
  unfold CarryEntry.heldLen
  cases e.held with
  | none => exact le_refl 0
  | some h => exact Int.natCast_nonneg _

theorem BufferedTrace.weight_stamp {tr : BufferedTrace} (h : tr.spans ≠ []) (w : ℕ) :
    (tr.stampWeight w).weight = w := by
  cases hs : tr.spans with
  | nil => exact absurd hs h
  | cons r l => simp [BufferedTrace.stampWeight, BufferedTrace.weight, hs, SpanRecord.weighted]

/-- STEP: an entry that goes takes its spans and its drops with it. The drops go to one of the two
    totals, `carried` of them to what was given out. -/
theorem CarryTally.Accounts.release (h : c.Accounts budget given out) (hk : c.m.lookup k = some e)
    (carried uncarried : ℕ) (he : carried + uncarried = e.dropped) :
    CarryTally.Accounts
      { c.release k e with
        carriedTotal := c.carriedTotal + carried
        uncarriedTotal := c.uncarriedTotal + uncarried } budget given (out + carried) := by
  have hheld := total_erase (f := CarryEntry.heldLen) hk
  have hdrops := total_erase (f := CarryEntry.dropped) hk
  have hpos := e.heldLen_nonneg
  have hin := h.within
  refine ⟨h.budget, ?_, ?_, ?_, ?_, h.holds.release k e⟩
  · show c.heldSpans - e.heldLen = total CarryEntry.heldLen (c.m.erase k)
    rw [h.held]
    omega
  · show c.heldSpans - e.heldLen ≤ c.maxHeldSpans
    omega
  · show given = c.carriedTotal + carried + (c.uncarriedTotal + uncarried)
      + total CarryEntry.dropped (c.m.erase k)
    rw [h.drops]
    omega
  · rw [h.carried]
    exact (Nat.cast_add _ _).symm

theorem CarryTally.drop_uncounted {tr : BufferedTrace} (h : tr.counted = false) (now : ℤ) :
    c.drop tr now = c := by
  refine if_pos ?_
  rw [BufferedTrace.counted] at h
  cases hs : tr.spans.isEmpty <;> simp_all

/-- The entry of a counted trace has one drop more, and holds what fits the budget. -/
theorem CarryTally.drop_counted {tr : BufferedTrace} (h : tr.counted = true) (now : ℤ)
    (hk : k = (tr.projectID, tr.traceOp)) (he : e = (c.m.lookup k).getD { since := now }) :
    ∃ e' : CarryEntry, e'.dropped = e.dropped + 1 ∧
      (c.heldSpans ≤ c.maxHeldSpans → c.heldSpans + (e'.heldLen - e.heldLen) ≤ c.maxHeldSpans) ∧
      c.drop tr now = { c with
        heldSpans := c.heldSpans + (e'.heldLen - e.heldLen)
        m := c.m.insert k e' } := by
  have hskip : (tr.spans.isEmpty || !tr.hasRoot) = false := by
    rw [BufferedTrace.counted] at h
    cases hs : tr.spans.isEmpty <;> simp_all
  subst hk he
  rw [CarryTally.drop, hskip]
  simp only [Bool.false_eq_true, ↓reduceIte]
  split
  · rename_i hfits
    refine ⟨_, rfl, fun _ => ?_, rfl⟩
    simp only [CarryEntry.heldLen] at hfits ⊢
    omega
  · refine ⟨{ (c.m.lookup (tr.projectID, tr.traceOp)).getD { since := now } with
      dropped := ((c.m.lookup (tr.projectID, tr.traceOp)).getD { since := now }).dropped + 1 },
      rfl, fun hin => ?_, ?_⟩
    · simpa [CarryEntry.heldLen] using hin
    · simp [CarryEntry.heldLen]

/-- STEP: a counted trace adds one drop, whether the entry holds it or keeps what it held. -/
theorem CarryTally.Accounts.drop (h : c.Accounts budget given out) (tr : BufferedTrace) (now : ℤ) :
    (c.drop tr now).Accounts budget (given + if tr.counted then 1 else 0) out := by
  cases hc : tr.counted with
  | false => rwa [CarryTally.drop_uncounted hc]
  | true =>
    have hspans : tr.spans ≠ [] := by
      rintro hs
      simp [BufferedTrace.counted, hs] at hc
    have hholds := h.holds.drop hspans now
    obtain ⟨e', hdrop, hfits, heq⟩ := CarryTally.drop_counted (c := c) hc now rfl rfl
    rw [heq] at hholds ⊢
    have hlen := total_insert_getD (d := c.m) (k := (tr.projectID, tr.traceOp)) (v := e')
      (f := CarryEntry.heldLen) (w := { since := now }) rfl
    have hsum := total_insert_getD (d := c.m) (k := (tr.projectID, tr.traceOp)) (v := e')
      (f := CarryEntry.dropped) (w := { since := now }) rfl
    refine ⟨h.budget, ?_, hfits h.within, ?_, h.carried, hholds⟩
    · have := h.held
      simp only
      omega
    · have := h.drops
      simp only [↓reduceIte]
      omega

/-- RUN: the walk of `expired` over entries of the map. The weights on its carriers are the drops the
    walk gives out. -/
theorem CarryTally.Accounts.expireFrom (now : ℤ) (all : Bool) :
    ∀ (rest : List ((_ : CarryKey) × CarryEntry)) {c : CarryTally} {out : ℤ},
      c.Accounts budget given out → rest.NodupKeys →
      (∀ x ∈ rest, c.m.lookup x.1 = some x.2) →
      (c.expireFrom now all rest).2.Accounts budget given
        (out + ((c.expireFrom now all rest).1.map BufferedTrace.weight).sum)
  | [], c, out, h, _, _ => by simpa [CarryTally.expireFrom] using h
  | ⟨k, e⟩ :: rest, c, out, h, hnd, hrest => by
    obtain ⟨hk, hnd⟩ := nodupKeys_cons.mp hnd
    have hentry := hrest _ mem_cons_self
    have htail : ∀ x ∈ rest, c.m.lookup x.1 = some x.2 :=
      fun x hx => hrest x (mem_cons_of_mem _ hx)
    -- the release of this entry leaves the others where they are
    have hleft : ∀ x ∈ rest, (c.m.erase k).lookup x.1 = some x.2 := by
      intro x hx
      have hne : x.1 ≠ k := by
        rintro rfl
        have hmem : x.1 ∈ rest.keys := mem_map_of_mem hx
        exact hk hmem
      rw [AList.lookup_erase_ne hne]
      exact htail x hx
    rw [CarryTally.expireFrom]
    split
    · exact Accounts.expireFrom now all rest h hnd htail
    · cases hh : e.held with
      | none =>
        have hrel := h.release hentry 0 e.dropped (Nat.zero_add _)
        simp only [Nat.cast_zero, add_zero] at hrel
        exact Accounts.expireFrom now all rest hrel hnd hleft
      | some tr =>
        have hrel := h.release hentry e.dropped 0 (Nat.add_zero _)
        have hrun := Accounts.expireFrom now all rest hrel hnd hleft
        simp only [map_cons, sum_cons,
          BufferedTrace.weight_stamp (h.holds k e tr hentry hh), ← add_assoc]
        exact hrun

theorem CarryTally.Accounts.take (h : c.Accounts budget given out) (projectID : ℤ) (op : String) :
    (c.take projectID op).2.Accounts budget given (out + (c.take projectID op).1) := by
  rw [CarryTally.take]
  cases hk : c.m.lookup (projectID, op) with
  | none => simpa using h
  | some e => exact h.release hk e.dropped 0 (Nat.add_zero _)

theorem accounts_new (budget : ℕ) :
    CarryTally.Accounts { maxHeldSpans := budget } budget 0 0 := by
  refine ⟨rfl, rfl, Int.natCast_nonneg _, rfl, rfl, fun k e h hk => ?_⟩
  simp at hk

end accounts

/-- The accounts of a tally in use, and the weight of a carrier is on each of its spans. -/
def CarryUse.Balanced (budget : ℕ) (s : CarryUse) : Prop :=
  s.tally.Accounts budget (s.given.countP BufferedTrace.counted)
      (s.taken.sum + (s.carriers.map BufferedTrace.weight).sum : ℤ) ∧
    ∀ tr ∈ s.carriers, ∀ r ∈ tr.spans, r.sampleWeight = tr.weight

theorem BufferedTrace.weight_span {tr : BufferedTrace} {w : ℕ} :
    ∀ r ∈ (tr.stampWeight w).spans, r.sampleWeight = (tr.stampWeight w).weight := by
  intro r hr
  have hne : tr.spans ≠ [] := by
    rintro hs
    simp [BufferedTrace.stampWeight, hs] at hr
  obtain ⟨q, -, rfl⟩ := mem_map.mp hr
  rw [BufferedTrace.weight_stamp hne]
  rfl

/-- STEP: every call keeps the accounts. -/
theorem CarryUse.Balanced.step {budget : ℕ} {s s' : CarryUse} {call : CarryCall}
    (h : s.Balanced budget) (hs : s.step call = some s') : s'.Balanced budget := by
  obtain ⟨hacc, hstamp⟩ := h
  cases call with
  | drop tr now =>
    cases hs
    refine ⟨?_, hstamp⟩
    have hd := hacc.drop tr now
    rw [← countP_cons] at hd
    exact hd
  | take projectID op =>
    cases hs
    refine ⟨?_, hstamp⟩
    have ht := hacc.take projectID op
    simp only [sum_cons, Nat.cast_add]
    convert ht using 1
    ring
  | expired now all order =>
    rw [CarryUse.step] at hs
    split at hs
    case isTrue hperm =>
      cases hs
      have hwalk : ∀ x ∈ order, s.tally.m.lookup x.1 = some x.2 :=
        fun x hx => AList.mem_lookup_iff.mpr (hperm.mem_iff.mp hx)
      have hnd : order.NodupKeys := (perm_nodupKeys hperm).mpr s.tally.m.nodupKeys
      have he := hacc.expireFrom now all order hnd hwalk
      refine ⟨?_, ?_⟩
      · simp only [map_append, sum_append]
        convert he using 1
        ring
      · intro tr htr
        rcases mem_append.mp htr with htr | htr
        · have hall : s.tally.AllHeld fun _ => True := fun _ _ _ _ _ => trivial
          obtain ⟨-, hout⟩ := hall.expireFrom now all order fun _ _ _ _ => trivial
          obtain ⟨tr, w, -, rfl⟩ := hout tr htr
          exact BufferedTrace.weight_span
        · exact hstamp tr htr
    case isFalse => cases hs

/-- CORRECT: over every sequence of calls with any traces, keys, times and walks of the map, the spans
    held are within the budget, every counted trace is carried, uncarried or pending, and what `take`
    returned with the weights of the carriers is the carried total. -/
theorem carry_accounts (budget : ℕ) (calls : List CarryCall) (s : CarryUse)
    (h : run CarryUse.step { tally := { maxHeldSpans := budget } } calls = some s) :
    s.tally.heldSpans = total CarryEntry.heldLen s.tally.m ∧
    s.tally.maxHeldSpans = budget ∧ s.tally.heldSpans ≤ budget ∧
    s.given.countP BufferedTrace.counted =
      s.tally.carriedTotal + s.tally.uncarriedTotal + total CarryEntry.dropped s.tally.m ∧
    (s.taken.sum : ℤ) + (s.carriers.map BufferedTrace.weight).sum = s.tally.carriedTotal ∧
    ∀ tr ∈ s.carriers, ∀ r ∈ tr.spans, r.sampleWeight = tr.weight := by
  have hnew : CarryUse.Balanced budget { tally := { maxHeldSpans := budget } } :=
    ⟨accounts_new budget, forall_mem_nil _⟩
  obtain ⟨hacc, hstamp⟩ := inv_run (fun _ _ _ hb hs => hb.step hs) hnew h
  have hin := hacc.within
  rw [hacc.budget] at hin
  exact ⟨hacc.held, hacc.budget, hin, hacc.drops, hacc.carried, hstamp⟩

/-- Two drops of one operation, a kept sample, and a third drop that waits out its hour. -/
def threeDrops : List CarryCall :=
  let tr : BufferedTrace :=
    { id := "t", projectID := 1, firstSeen := 0, rootSeen := some 0, seq := 0, rootOp := "GET /",
      spans := [⟨1, "t", "a", "", "GET /", "", "", "", "", 0, 0, "", "", 0⟩] }
  [.drop tr 0, .drop tr 1, .take 1 "GET /", .drop tr 2,
    .expired (carryWait + 2) false [⟨(1, "GET /"), { dropped := 1, held := some tr, since := 2 }⟩]]

theorem carry_accounts_threeDrops :
    ∃ s, run CarryUse.step { tally := { maxHeldSpans := 3 } } threeDrops = some s ∧
      s.taken = [2] ∧ s.carriers.map BufferedTrace.weight = [1] ∧ s.tally.carriedTotal = 3 ∧
      (s.taken.sum : ℤ) + (s.carriers.map BufferedTrace.weight).sum = s.tally.carriedTotal := by
  have hrun : ∃ s, run CarryUse.step { tally := { maxHeldSpans := 3 } } threeDrops = some s ∧
      s.taken = [2] ∧ s.carriers.map BufferedTrace.weight = [1] ∧ s.tally.carriedTotal = 3 :=
    ⟨_, rfl, rfl, rfl, rfl⟩
  obtain ⟨s, hs, htaken, hweights, htotal⟩ := hrun
  exact ⟨s, hs, htaken, hweights, htotal, (carry_accounts 3 threeDrops s hs).2.2.2.2.1⟩

end Spanbarn.Ingest
