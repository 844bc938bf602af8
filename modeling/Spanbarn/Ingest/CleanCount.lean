import Spanbarn.Ingest.ErrorPromise
import Spanbarn.Schemes.Run

/-! Every trace is counted once.

    A root span stands for its trace. Wherever it is, the trace is counted there: buffered it counts one,
    kept it counts its sample weight, dropped it is one of the drops of its operation.

        buffered 1 ──▶ kept with 1 + drops │ a drop ──▶ carried by a later weight
                                                    └──▶ a carrier that stands for all drops │ uncarried

    Every piece of `Add` and of a flush keeps the count, but for a root span that comes after its trace
    was decided without it: it takes on that decision's weight, whatever it is. -/

namespace Spanbarn.Ingest
open List Spanbarn.Model Spanbarn.Schemes Spanbarn.Ledger Spanbarn.Sampling

/-! ### Root spans -/

/-- The span has no parent. -/
def isRoot (r : SpanRecord) : Bool := r.parentSpanID == ""

/-- Sum of `f` over the root spans. -/
def rootSum (f : SpanRecord → ℤ) (l : List SpanRecord) : ℤ := ((l.filter isRoot).map f).sum

/-- Sample weights of the root spans. -/
abbrev rootWeight : List SpanRecord → ℤ := rootSum SpanRecord.sampleWeight

/-- Number of root spans. -/
abbrev rootCount : List SpanRecord → ℤ := rootSum fun _ => 1

@[simp] theorem rootSum_nil (f : SpanRecord → ℤ) : rootSum f [] = 0 := rfl

@[simp] theorem rootSum_cons (f : SpanRecord → ℤ) (r : SpanRecord) (l : List SpanRecord) :
    rootSum f (r :: l) = (if isRoot r then f r else 0) + rootSum f l := by
  cases h : isRoot r <;> simp [rootSum, h]

@[simp] theorem rootSum_append (f : SpanRecord → ℤ) (a b : List SpanRecord) :
    rootSum f (a ++ b) = rootSum f a + rootSum f b := by
  simp [rootSum]

theorem rootWeight_append (a b : List SpanRecord) :
    rootWeight (a ++ b) = rootWeight a + rootWeight b := rootSum_append _ a b

theorem rootCount_append (a b : List SpanRecord) :
    rootCount (a ++ b) = rootCount a + rootCount b := rootSum_append _ a b

theorem rootCount_eq (l : List SpanRecord) : rootCount l = (l.filter isRoot).length := by
  simp [rootSum]

/-- Stamped with one weight, every root span counts that weight. -/
theorem rootWeight_weighted (l : List SpanRecord) (w : ℤ) :
    rootWeight (l.map (·.weighted w)) = w * rootCount l := by
  induction l with
  | nil => simp
  | cons r l ih =>
    have hr : isRoot (r.weighted w) = isRoot r := rfl
    simp only [map_cons, rootSum_cons, ih, hr, mul_add]
    cases isRoot r <;> simp [SpanRecord.weighted]

theorem rootWeight_stampWeight (tr : BufferedTrace) (w : ℕ) :
    rootWeight (tr.stampWeight w).spans = w * rootCount tr.spans :=
  rootWeight_weighted tr.spans w

/-- The trace has its one root span if it saw it, and saw it only if it is one of `ids`. -/
structure Rooted (ids : List String) (tr : BufferedTrace) : Prop where
  count : rootCount tr.spans = if tr.hasRoot then 1 else 0
  seen : tr.hasRoot = true → tr.id ∈ ids

variable {ids : List String}

theorem Rooted.mono {ids' : List String} {tr : BufferedTrace} (h : Rooted ids tr)
    (hsub : ids ⊆ ids') : Rooted ids' tr :=
  ⟨h.count, fun hr => hsub (h.seen hr)⟩

theorem latchRoot_hasRoot (tr : BufferedTrace) (env : Env) (rec : SpanRecord) :
    (tr.latchRoot env rec).hasRoot = (tr.hasRoot || isRoot rec) := by
  unfold BufferedTrace.latchRoot isRoot
  by_cases hp : rec.parentSpanID = ""
  · cases hs : tr.rootSeen with
    | none => by_cases ho : tr.rootOp = "" <;> simp [hp, ho, BufferedTrace.hasRoot]
    | some t => simp [BufferedTrace.hasRoot, hs]
  · simp [hp]

/-! ### The carry tally -/

/-- Traces the tally counts: those given up on, and those still to be carried. -/
def CarryTally.counts (c : CarryTally) : ℤ :=
  c.uncarriedTotal + total (fun e => (e.dropped : ℤ)) c.m

/-- A dropped trace is one more drop if its root came. -/
theorem counts_drop (c : CarryTally) (tr : BufferedTrace) (now : ℤ)
    (htr : rootCount tr.spans = if tr.hasRoot then 1 else 0) :
    (c.drop tr now).counts = c.counts + rootCount tr.spans := by
  unfold CarryTally.drop
  split
  · next hskip =>
    rw [Bool.or_eq_true, List.isEmpty_iff, Bool.not_eq_true'] at hskip
    rcases hskip with hnil | hroot
    · rw [hnil]; simp
    · rw [htr, hroot]; simp
  · next hskip =>
    rw [Bool.or_eq_true, not_or, Bool.not_eq_true', Bool.not_eq_false] at hskip
    rw [htr, hskip.2]
    -- either way the entry of its operation has one more drop
    have hone : ∀ e : CarryEntry,
        e.dropped = ((c.m.lookup (tr.projectID, tr.traceOp)).getD { since := now }).dropped + 1 →
        total (fun e => (e.dropped : ℤ)) (c.m.insert (tr.projectID, tr.traceOp) e) =
          total (fun e => (e.dropped : ℤ)) c.m + 1 := by
      intro e he
      cases hl : c.m.lookup (tr.projectID, tr.traceOp) with
      | none =>
        rw [total_insert_of_none hl, he, hl]
        simp [add_comm]
      | some x =>
        have hins := total_insert (f := fun e : CarryEntry => (e.dropped : ℤ)) (v := e) hl
        rw [hl] at he
        simp only [Option.getD_some] at he
        rw [he] at hins
        push_cast at hins
        omega
    simp only
    split
    · rw [CarryTally.counts, CarryTally.counts, hone _ rfl, if_pos trivial, add_assoc]
    · rw [CarryTally.counts, CarryTally.counts, hone _ rfl, if_pos trivial, add_assoc]

/-- A kept sample takes its operation's drops with it. -/
theorem counts_take (c : CarryTally) (projectID : ℤ) (op : String) :
    (c.take projectID op).2.counts + (c.take projectID op).1 = c.counts := by
  unfold CarryTally.take
  cases hl : c.m.lookup (projectID, op) with
  | none => simp
  | some e =>
    have herase := total_erase (f := fun e : CarryEntry => (e.dropped : ℤ)) hl
    simp only [CarryTally.counts, CarryTally.release, ← herase]
    ring

/-- Every carrier has one root span, so it counts for the drops it stands for; drops without a carrier
    go uncarried. -/
theorem counts_expireFrom (now : ℤ) (all : Bool) :
    ∀ (rest : List ((_ : CarryKey) × CarryEntry)) {c : CarryTally}, rest.NodupKeys →
      (∀ x ∈ rest, c.m.lookup x.1 = some x.2) →
      (∀ x ∈ rest, ∀ h, x.2.held = some h → rootCount h.spans = 1) →
      (c.expireFrom now all rest).2.counts + rootWeight (spansOf (c.expireFrom now all rest).1) =
        c.counts
  | [], c, _, _, _ => by simp [CarryTally.expireFrom]
  | ⟨k, e⟩ :: rest, c, hnd, hin, hheld => by
    rw [nodupKeys_cons] at hnd
    have htail : ∀ x ∈ rest, ∀ h, x.2.held = some h → rootCount h.spans = 1 :=
      fun x hx => hheld x (mem_cons_of_mem _ hx)
    have hstill : ∀ x ∈ rest, (c.m.erase k).lookup x.1 = some x.2 := by
      intro x hx
      have hne : x.1 ≠ k := by
        rintro rfl
        have hmem := mem_keys_of_mem hx
        exact hnd.1 hmem
      rw [AList.lookup_erase_ne hne]
      exact hin x (mem_cons_of_mem _ hx)
    have herase := total_erase (f := fun e : CarryEntry => (e.dropped : ℤ)) (hin _ mem_cons_self)
    rw [CarryTally.expireFrom]
    split
    · exact counts_expireFrom now all rest hnd.2 (fun x hx => hin x (mem_cons_of_mem _ hx)) htail
    · cases hh : e.held with
      | none =>
        have ih := counts_expireFrom now all rest hnd.2
          (c := { c.release k e with uncarriedTotal := (c.release k e).uncarriedTotal + e.dropped })
          hstill htail
        simp only
        rw [ih]
        simp only [CarryTally.counts, CarryTally.release, ← herase]
        push_cast
        ring
      | some h =>
        have ih := counts_expireFrom now all rest hnd.2
          (c := { c.release k e with carriedTotal := (c.release k e).carriedTotal + e.dropped })
          hstill htail
        have hone := hheld _ mem_cons_self h hh
        simp only [spansOf_cons, rootSum_append, rootWeight_stampWeight, hone]
        rw [mul_one, add_left_comm, ih]
        simp only [CarryTally.counts, CarryTally.release, ← herase]
        ring

theorem counts_expired {c : CarryTally} (hc : c.AllHeld fun tr => rootCount tr.spans = 1) (now : ℤ)
    (all : Bool) :
    (c.expired now all).2.counts + rootWeight (spansOf (c.expired now all).1) = c.counts :=
  counts_expireFrom now all _ c.m.nodupKeys (fun _ hx => AList.mem_lookup_iff.mpr hx)
    fun _ hx h hh => hc _ _ h (AList.mem_lookup_iff.mpr hx) hh

/-- Shutdown leaves no drop waiting. -/
theorem expireFrom_all (now : ℤ) : ∀ (rest : List ((_ : CarryKey) × CarryEntry)) {c : CarryTally},
    (∀ k e, c.m.lookup k = some e → ⟨k, e⟩ ∈ rest) → (c.expireFrom now true rest).2.m = ∅
  | [], c, h => eq_empty fun k => by
    cases hl : c.m.lookup k with
    | none => exact hl
    | some e => exact absurd (h k e hl) not_mem_nil
  | ⟨k, e⟩ :: rest, c, h => by
    have hrest : ∀ k' e', (c.m.erase k).lookup k' = some e' → ⟨k', e'⟩ ∈ rest := by
      intro k' e' hl
      obtain ⟨hne, hl⟩ := lookup_of_erase hl
      rcases mem_cons.mp (h k' e' hl) with heq | hmem
      · exact absurd (congrArg Sigma.fst heq) hne
      · exact hmem
    rw [CarryTally.expireFrom]
    simp only [Bool.not_true, Bool.false_and, Bool.false_eq_true, if_false]
    cases hh : e.held with
    | none | some _ => exact expireFrom_all now rest hrest

theorem expired_all (c : CarryTally) (now : ℤ) : (c.expired now true).2.m = ∅ :=
  expireFrom_all now _ fun _ _ hl => AList.mem_lookup_iff.mp hl

/-- Only traces with a root span are held, so a held trace has one. -/
theorem oneRoot_drop {c : CarryTally} (hc : c.AllHeld fun tr => rootCount tr.spans = 1)
    (tr : BufferedTrace) (now : ℤ) (htr : rootCount tr.spans = if tr.hasRoot then 1 else 0) :
    (c.drop tr now).AllHeld fun tr => rootCount tr.spans = 1 := by
  cases hr : tr.hasRoot with
  | false =>
    have hsame : c.drop tr now = c := by simp [CarryTally.drop, hr]
    rwa [hsame]
  | true => exact hc.drop (by rw [htr, hr]; rfl) now

/-! ### The count of a buffer -/

/-- Traces the buffer counts, whatever became of them. -/
def TraceBuffer.counts (tb : TraceBuffer) : ℤ :=
  rootWeight (tb.out ++ tb.undelivered).flatten + tb.carry.counts +
    total (fun tr => rootCount tr.spans) tb.traces + rootWeight (spansOf tb.rescuedAtCap) +
    rootWeight tb.decided.late

/-- What the count rests on: every buffered trace has the root span it saw, every held one has one. -/
structure Roots (ids : List String) (tb : TraceBuffer) : Prop where
  kept : Kept tb
  traces : ∀ {id tr}, tb.traces.lookup id = some tr → Rooted ids tr
  held : tb.carry.AllHeld fun tr => rootCount tr.spans = 1

/-- A kept trace counts its weight: itself, and the drops it takes from the tally. -/
theorem counts_keepWeight (tb : TraceBuffer) (lookup : Lookup) {tr : BufferedTrace} (now : ℤ)
    (htr : rootCount tr.spans = if tr.hasRoot then 1 else 0) :
    (tb.keepWeight lookup tr now).2.2.counts + (tb.keepWeight lookup tr now).1 * rootCount tr.spans =
      tb.carry.counts + if (tb.keepWeight lookup tr now).1 = 0 then 0 else rootCount tr.spans := by
  unfold TraceBuffer.keepWeight
  by_cases he : tr.hasError = true
  · simp [he]
  by_cases hnil : tr.spans.isEmpty = true
  · simp [he, hnil]
  by_cases hslow : tb.slowRoot tr = true
  · simp [he, hnil, hslow]
  rcases hres : tb.rescued tr.projectID tr.traceOp now
    (ratioSampled tr.id (ratio lookup tr.projectID tr.rootOp)) with ⟨_ | _, fl⟩
  · simp [he, hnil, hslow, hres]
  cases hroot : tr.hasRoot with
  | false =>
    -- a part without the root counts no trace, whatever its weight
    have hzero : rootCount tr.spans = 0 := by rw [htr, hroot]; rfl
    simp [he, hnil, hslow, hres, hzero]
  | true =>
    have hone : rootCount tr.spans = 1 := by rw [htr, hroot]; rfl
    have htake := counts_take tb.carry tr.projectID tr.traceOp
    simp only [he, hnil, hslow, hres, hone, ← htake]
    simp
    ring

/-! ### Making room -/

section evict
variable {ids : List String} {tb : TraceBuffer} {tr : BufferedTrace}

/-- A trace that leaves takes its root span out of the buffered ones. -/
theorem total_remove (hl : tb.traces.lookup tr.id = some tr) :
    total (fun tr => rootCount tr.spans) (tb.traces.erase tr.id) + rootCount tr.spans =
      total (fun tr => rootCount tr.spans) tb.traces :=
  total_erase (f := fun tr : BufferedTrace => rootCount tr.spans) hl

theorem counts_evictKept (env : Env) (hl : tb.traces.lookup tr.id = some tr) (htr : Rooted ids tr) :
    (tb.evictKept env tr).counts = tb.counts := by
  have herase := total_remove hl
  have hdrop := counts_drop tb.carry { tr with droppedAs := .lostInBuffer } env.now htr.count
  have hlate := (puts_put tb.decided tr.id 0 false env.now).late
  simp only [TraceBuffer.counts, TraceBuffer.evictKept, TraceBuffer.putDecision, TraceBuffer.drop,
    TraceBuffer.remove, hdrop, hlate]
  omega

theorem counts_evictSacrificial (env : Env) (hl : tb.traces.lookup tr.id = some tr)
    (htr : Rooted ids tr) : (tb.evictSacrificial env tr).counts = tb.counts := by
  have herase := total_remove hl
  have hkeep := counts_keepWeight (tb.remove tr) env.lookup env.now htr.count
  have hlate := fun w => (puts_put tb.decided tr.id w false env.now).late
  by_cases hw : ((tb.remove tr).keepWeight env.lookup tr env.now).1 = 0
  · have hdrop := counts_drop ((tb.remove tr).keepWeight env.lookup tr env.now).2.2
      { tr with droppedAs := .shedUnsampled } env.now htr.count
    rw [hw] at hkeep
    rw [evictSacrificial_drops hw]
    simp only [TraceBuffer.counts, TraceBuffer.putDecision, TraceBuffer.drop, hdrop]
    simp only [TraceBuffer.remove, hlate] at hkeep ⊢
    simp at hkeep
    omega
  · rw [if_neg hw] at hkeep
    rw [evictSacrificial_rescues hw]
    simp only [TraceBuffer.counts, TraceBuffer.putDecision, spansOf_append,
      spansOf_cons, spansOf_nil, append_nil, rootWeight_append, rootWeight_stampWeight]
    simp only [TraceBuffer.remove, hlate] at hkeep ⊢
    omega

theorem Roots.evictKept (h : Roots ids tb) (env : Env) {keep : Option String} (hv : Victim tb keep tr) :
    Roots ids (tb.evictKept env tr) := by
  obtain ⟨id, hl⟩ := hv.buffered
  exact ⟨(evicts_kept tb env tr).kept hv h.kept, fun hx => h.traces (lookup_of_erase hx).2,
    oneRoot_drop h.held _ env.now (h.traces hl).count⟩

theorem Roots.evictSacrificial (h : Roots ids tb) (env : Env) {keep : Option String}
    (hv : Victim tb keep tr) : Roots ids (tb.evictSacrificial env tr) := by
  obtain ⟨id, hl⟩ := hv.buffered
  have hheld := TraceBuffer.keepWeight_allHeld (tb.remove tr) h.held env.lookup tr env.now
  have he := evicts_sacrificial tb env tr
  refine ⟨he.kept hv h.kept, fun {k x} hx => ?_, ?_⟩
  · rw [he.traces_eq] at hx
    exact h.traces (lookup_of_erase hx).2
  · by_cases hw : ((tb.remove tr).keepWeight env.lookup tr env.now).1 = 0
    · rw [evictSacrificial_drops hw]
      exact oneRoot_drop hheld _ env.now (h.traces hl).count
    · rw [evictSacrificial_rescues hw]
      exact hheld

/-- Making room keeps the count. -/
theorem counts_ensureRoom (h : Roots ids tb) (env : Env) (keep : Option String) :
    Roots ids (tb.ensureRoom env keep).2 ∧ (tb.ensureRoom env keep).2.counts = tb.counts ∧
      (tb.ensureRoom env keep).2.refusedTotal = tb.refusedTotal := by
  refine ensureRoom_evictions
    (P := fun t => Roots ids t ∧ t.counts = tb.counts ∧ t.refusedTotal = tb.refusedTotal)
    ?_ ?_ ?_ ⟨h, rfl, rfl⟩
  · rintro t q q' ⟨⟨⟨h1, h2, h3, h4, h5⟩, ht, hh⟩, hc, hr⟩
    exact ⟨⟨⟨h1, h2, h3, h4, h5⟩, ht, hh⟩, hc, hr⟩
  · rintro t tr ⟨ht, hc, hr⟩ hv
    obtain ⟨id, hl⟩ := hv.buffered
    refine ⟨ht.evictSacrificial env hv,
      (counts_evictSacrificial env (ht.kept.lookup_id hl) (ht.traces hl)).trans hc, ?_⟩
    rw [← hr]
    by_cases hw : ((t.remove tr).keepWeight env.lookup tr env.now).1 = 0
    · rw [evictSacrificial_drops hw]; rfl
    · rw [evictSacrificial_rescues hw]; rfl
  · rintro t tr ⟨ht, hc, hr⟩ hv
    obtain ⟨id, hl⟩ := hv.buffered
    exact ⟨ht.evictKept env hv,
      (counts_evictKept env (ht.kept.lookup_id hl) (ht.traces hl)).trans hc, hr⟩

end evict

/-! ### Adding a span -/

/-- The traces of the root spans. -/
def rootIDs (l : List SpanRecord) : List String := (l.filter isRoot).map SpanRecord.traceID

/-- `n` more root spans came in; those not counted were refused. -/
structure Gains (tb tb' : TraceBuffer) (n : ℤ) : Prop where
  le : tb'.counts ≤ tb.counts + n
  refused : tb.counts + n + tb.refusedTotal ≤ tb'.counts + tb'.refusedTotal

variable {tb tb' : TraceBuffer} {n : ℤ}

theorem Gains.of_eq (hc : tb'.counts = tb.counts + n) (hr : tb'.refusedTotal = tb.refusedTotal) :
    Gains tb tb' n :=
  ⟨hc.le, by rw [hc, hr]⟩

theorem Gains.of_same (hc : tb'.counts = tb.counts) (hr : tb'.refusedTotal = tb.refusedTotal) :
    Gains tb tb' 0 :=
  .of_eq (hc.trans (add_zero _).symm) hr

theorem Gains.trans {a b c : TraceBuffer} {m : ℤ} (h : Gains a b n) (h' : Gains b c m) :
    Gains a c (n + m) := by
  obtain ⟨h1, h2⟩ := h
  obtain ⟨h3, h4⟩ := h'
  exact ⟨by omega, by omega⟩

section add
variable {ids : List String} {tb : TraceBuffer} {tr : BufferedTrace} {rec : SpanRecord}

theorem rootCount_singleton (rec : SpanRecord) : rootCount [rec] = if isRoot rec then 1 else 0 := by
  simp

theorem Roots.mono {ids' : List String} (h : Roots ids tb) (hsub : ids ⊆ ids') : Roots ids' tb :=
  ⟨h.kept, fun hx => (h.traces hx).mono hsub, h.held⟩

/-- A span joins its trace: a root span is the first of the trace. -/
theorem Rooted.join (h : Rooted ids tr) (hid : rec.traceID = tr.id)
    (hnew : isRoot rec = true → rec.traceID ∉ ids) {tr' : BufferedTrace} (hid' : tr'.id = tr.id)
    (hspans : tr'.spans = tr.spans ++ [rec]) (hroot : tr'.hasRoot = (tr.hasRoot || isRoot rec)) :
    Rooted (ids ++ rootIDs [rec]) tr' := by
  cases hr : isRoot rec with
  | false =>
    rw [hr, Bool.or_false] at hroot
    refine ⟨?_, fun hs => ?_⟩
    · rw [hspans, rootCount_append, rootCount_singleton, hr, h.count, hroot]
      simp
    · rw [hid']
      exact mem_append_left _ (h.seen (hroot ▸ hs))
  | true =>
    have hfirst : tr.hasRoot = false := by
      cases hs : tr.hasRoot with
      | false => rfl
      | true => exact absurd (hid ▸ h.seen hs) (hnew hr)
    refine ⟨?_, fun _ => ?_⟩
    · rw [hspans, rootCount_append, rootCount_singleton, hr, h.count, hroot, hfirst, hr]
      simp
    · rw [hid', ← hid]
      exact mem_append_right _ (by simp [rootIDs, hr])

theorem gains_append (h : Roots ids tb) (env : Env) (hl : tb.traces.lookup tr.id = some tr)
    (hid : rec.traceID = tr.id) (hnew : isRoot rec = true → rec.traceID ∉ ids) :
    Roots (ids ++ rootIDs [rec]) (tb.append env tr rec) ∧
      Gains tb (tb.append env tr rec) (rootCount [rec]) := by
  set tr' := BufferedTrace.latchRoot
    { tr with hasError := tr.hasError || rec.isError, spans := tr.spans ++ [rec] } env rec with htr'
  have ht : (tb.append env tr rec).traces = tb.traces.insert tr.id tr' := rfl
  have hspans : tr'.spans = tr.spans ++ [rec] := latchRoot_spans ..
  refine ⟨⟨kept_append h.kept env (h.kept.latched hl), fun {k x} hx => ?_, h.held⟩, .of_eq ?_ rfl⟩
  · rw [ht] at hx
    rcases lookup_of_insert hx with ⟨rfl, rfl⟩ | ⟨-, hx⟩
    · exact (h.traces hl).join hid hnew (latchRoot_id ..) hspans (latchRoot_hasRoot ..)
    · exact (h.traces hx).mono (subset_append_left _ _)
  · have hins := total_insert (f := fun tr : BufferedTrace => rootCount tr.spans) (v := tr') hl
    rw [← ht] at hins
    simp only [hspans, rootCount_append] at hins
    have hrest : (tb.append env tr rec).counts = rootWeight (tb.out ++ tb.undelivered).flatten +
        tb.carry.counts + total (fun tr => rootCount tr.spans) (tb.append env tr rec).traces +
        rootWeight (spansOf tb.rescuedAtCap) + rootWeight tb.decided.late := rfl
    rw [hrest, TraceBuffer.counts]
    omega

theorem roots_newTrace (h : Roots ids tb) (env : Env) (rec : SpanRecord)
    (hl : tb.traces.lookup rec.traceID = none) :
    Roots ids (tb.newTrace env rec).2 ∧ (tb.newTrace env rec).2.counts = tb.counts := by
  refine ⟨⟨(kept_newTrace h.kept env rec).1, fun {k x} hx => ?_, h.held⟩, ?_⟩
  · rcases lookup_of_insert hx with ⟨rfl, rfl⟩ | ⟨-, hx⟩
    · exact ⟨rfl, nofun⟩
    · exact h.traces hx
  · have hsum : total (fun tr => rootCount tr.spans) (tb.newTrace env rec).2.traces =
        total (fun tr => rootCount tr.spans) tb.traces := by
      rw [TraceBuffer.newTrace, total_insert_of_none hl]
      simp
    unfold TraceBuffer.counts
    rw [hsum]
    rfl

/-- A span of a trace that is not decided is admitted, or refused. -/
theorem gains_admitSpan (h : Roots ids tb) (env : Env) {tr : Option BufferedTrace}
    (htr : tb.traces.lookup rec.traceID = tr) (hnew : isRoot rec = true → rec.traceID ∉ ids) :
    Roots (ids ++ rootIDs [rec]) (tb.admitSpan env rec tr) ∧
      Gains tb (tb.admitSpan env rec tr) (rootCount [rec]) := by
  obtain ⟨hroots, hc, hr⟩ := counts_ensureRoom h env (tr.map BufferedTrace.id)
  have hroom : Gains tb (tb.ensureRoom env (tr.map BufferedTrace.id)).2 0 := .of_same hc hr
  unfold TraceBuffer.admitSpan
  simp only
  split
  · -- refused: the counter of refusals makes up for the root span
    obtain ⟨⟨h1, h2, h3, h4, h5⟩, ht, hh⟩ := hroots.mono (subset_append_left ids (rootIDs [rec]))
    refine ⟨⟨⟨h1, h2, h3, h4, h5⟩, ht, hh⟩, ?_⟩
    have hsame : ((tb.ensureRoom env (tr.map BufferedTrace.id)).2.refuse rec).counts = tb.counts := hc
    have hone : ((tb.ensureRoom env (tr.map BufferedTrace.id)).2.refuse rec).refusedTotal =
        tb.refusedTotal + 1 := congrArg (· + 1) hr
    refine ⟨?_, ?_⟩
    all_goals
      simp only [hsame, hone, rootCount_singleton]
      split <;> push_cast <;> omega
  · cases tr with
    | some tr =>
      have hkeys := h.kept.keys htr
      have hstays : (tb.ensureRoom env (some tr.id)).2.traces.lookup tr.id = some tr :=
        ensureRoom_stays env h.kept (h.kept.lookup_id htr) (.inr rfl)
      obtain ⟨hroots', hgain⟩ := gains_append hroots env hstays hkeys.symm hnew
      exact ⟨hroots', by simpa using hroom.trans hgain⟩
    | none =>
      obtain ⟨hnewRoots, hcounts⟩ := roots_newTrace hroots env rec
        (ensureRoom_no_trace env _ htr)
      obtain ⟨hroots', hgain⟩ := gains_append hnewRoots env (newTrace_lookup ..) rfl hnew
      have hstart : Gains (tb.ensureRoom env none).2
          ((tb.ensureRoom env none).2.newTrace env rec).2 0 := .of_same hcounts rfl
      exact ⟨hroots', by simpa using (hroom.trans hstart).trans hgain⟩

/-- A root span does not come after its trace was decided with a weight other than one. -/
def InTime (tb : TraceBuffer) (rec : SpanRecord) : Prop :=
  isRoot rec = true → tb.traces.lookup rec.traceID = none →
    ∀ e ∈ tb.decided.m.lookup rec.traceID, e.weight = 1

instance (tb : TraceBuffer) (rec : SpanRecord) : Decidable (InTime tb rec) := by
  unfold InTime; infer_instance

/-- A late root span that is in time counts one. -/
theorem gains_followed (h : Roots ids tb) (hw : Whole tb) {r : DecidedTraces × Tally}
    (hfol : tb.decided.follow tb.ledger rec = some r) (hl : tb.traces.lookup rec.traceID = none)
    (ht : InTime tb rec) :
    Roots (ids ++ rootIDs [rec]) (tb.followed r) ∧ Gains tb (tb.followed r) (rootCount [rec]) := by
  obtain ⟨e, hm, hcase⟩ := follows_follow hfol
  obtain ⟨hkept, -⟩ := follow_flow h.kept hfol
  have hone : isRoot rec = true → e.weight = 1 := fun hr => ht hr hl e hm
  refine ⟨⟨hkept, (h.mono (subset_append_left _ _)).traces, h.held⟩, .of_eq ?_ rfl⟩
  rw [rootCount_singleton]
  cases hcase with
  | parks hp => exact (hw.idle.pending hm hp).elim
  | drops _ h0 =>
    have hr : isRoot rec = false := by
      cases hr : isRoot rec with
      | false => rfl
      | true => rw [hone hr] at h0; cases h0
    rw [hr]
    exact (add_zero _).symm
  | @keeps m weight _ _ hwe _ =>
    have hlate : rootWeight [rec.weighted weight] = if isRoot rec then 1 else 0 := by
      have hr : isRoot (rec.weighted weight) = isRoot rec := rfl
      rw [rootWeight, rootSum_cons, hr]
      cases hr : isRoot rec with
      | false => rfl
      | true => rw [hwe, hone hr]; rfl
    rw [← hlate]
    simp only [TraceBuffer.counts, TraceBuffer.followed, rootWeight_append]
    ring

/-- One `Add` counts a root span once, unless it is refused. -/
theorem gains_add (h : Roots ids tb) (hw : Whole tb) (env : Env) (ht : InTime tb rec)
    (hnew : isRoot rec = true → rec.traceID ∉ ids) :
    Roots (ids ++ rootIDs [rec]) (tb.add env rec) ∧ Gains tb (tb.add env rec) (rootCount [rec]) := by
  have hroots : Roots ids (tb.accept rec) :=
    ⟨⟨h.kept.keys, h.kept.latched, h.kept.rescued, h.kept.carried, h.kept.parked⟩, h.traces, h.held⟩
  have hwhole : Whole (tb.accept rec) := ⟨hroots.kept, hw.idle, hw.apart⟩
  suffices hroute : Roots (ids ++ rootIDs [rec]) ((tb.accept rec).route env rec) ∧
      Gains (tb.accept rec) ((tb.accept rec).route env rec) (rootCount [rec]) from
    ⟨hroute.1, hroute.2.le, hroute.2.refused⟩
  unfold TraceBuffer.route
  cases htr : (tb.accept rec).traces.lookup rec.traceID with
  | some tr => exact gains_admitSpan hroots env htr hnew
  | none =>
    cases hfol : (tb.accept rec).decided.follow (tb.accept rec).ledger rec with
    | some r => exact gains_followed hroots hwhole hfol htr ht
    | none => exact gains_admitSpan hroots env htr hnew

end add

/-! ### A flush -/

/-- Traces a flush on its way counts. -/
def Flight.counts : Flight → ℤ
  | .deciding _ _ todo _ kept => rootCount (spansOf todo) + rootWeight (spansOf kept)
  | .settling _ _ kept => rootWeight (spansOf kept)
  | .delivering batches _ => rootWeight batches.flatten
  | .done => 0

/-- Between the pieces of a flush: what the count rests on, and the traces it has yet to decide. -/
structure Counted (ids : List String) (n : ℤ) (r : ℕ) (tb : TraceBuffer) (f : Flight) : Prop where
  mid : Mid tb f
  roots : Roots ids tb
  todo : ∀ tr ∈ f.todo, Rooted ids tr
  counts : tb.counts + f.counts = n
  refused : tb.refusedTotal = r

theorem takeOut_counts : ∀ (trs : List BufferedTrace) {tb : TraceBuffer} (now : ℤ), Takes tb trs →
    (trs.foldl (TraceBuffer.takeOut now) tb).counts + rootCount (spansOf trs) = tb.counts ∧
      (trs.foldl (TraceBuffer.takeOut now) tb).carry = tb.carry ∧
      (trs.foldl (TraceBuffer.takeOut now) tb).refusedTotal = tb.refusedTotal
  | [], tb, now, _ => by simp
  | tr :: trs, tb, now, h => by
    obtain ⟨hc, hcarry, hr⟩ := takeOut_counts trs now h.tail
    refine ⟨?_, hcarry, hr⟩
    have herase := total_remove (h.buffered tr mem_cons_self)
    have hlate := (takeOut_puts tb now tr).late
    have hone : (tb.takeOut now tr).counts + rootCount tr.spans = tb.counts := by
      have hrest : (tb.takeOut now tr).counts = rootWeight (tb.out ++ tb.undelivered).flatten +
          tb.carry.counts + total (fun tr => rootCount tr.spans) (tb.traces.erase tr.id) +
          rootWeight (spansOf tb.rescuedAtCap) + rootWeight (tb.takeOut now tr).decided.late := rfl
      rw [hrest, hlate, TraceBuffer.counts]
      omega
    rw [foldl_cons, spansOf_cons, rootCount_append]
    omega

theorem counted_start (now : ℤ) (all : Bool) (hw : Whole tb) (h : Roots ids tb) :
    Counted ids tb.counts tb.refusedTotal (tb.start now all).1 (tb.start now all).2 := by
  have hmid := mid_start now all hw
  have hu := hw.dueUnparked now all
  obtain ⟨hc, hcarry, hr⟩ := takeOut_counts _ now (takes_toDecide hw.kept hu)
  refine ⟨hmid, ⟨hmid.kept, fun hx => ?_, ?_⟩, fun tr htr => ?_, ?_, hr⟩
  · exact h.traces ((start_traces hw.kept hu).mp hx).1
  · have hsame : (tb.start now all).1.carry = tb.carry := hcarry
    rw [hsame]
    exact h.held
  · obtain ⟨id, hid⟩ := mem_values.mp (mem_toDecide.mp htr).1
    exact h.traces hid
  · rw [← hc]
    have hlate := (forgets_expire
      ((tb.toDecide now all).foldl (TraceBuffer.takeOut now) tb).decided now).late
    simp only [TraceBuffer.start, TraceBuffer.takeDue, TraceBuffer.counts, Flight.counts, hlate,
      spansOf_nil, rootSum_nil]
    ring

/-- With nothing parked, settling changes only the decisions. -/
theorem settleAll_of_noParked : ∀ (ws : List (String × ℕ)) {tb : TraceBuffer} (now : ℤ), NoParked tb →
    ∃ d, ws.foldl (TraceBuffer.settleOne now) tb = { tb with decided := d } ∧ d.late = tb.decided.late
  | [], tb, now, _ => ⟨tb.decided, rfl, rfl⟩
  | w :: ws, tb, now, hp => by
    have hputs := puts_put tb.decided w.1 w.2 false now
    have hp' : NoParked { tb with decided := (tb.decided.put w.1 w.2 false now).2 } := fun id => by
      rw [hputs.parked]; split <;> [rfl; exact hp id]
    obtain ⟨d, hd, hlate⟩ := settleAll_of_noParked ws now hp'
    refine ⟨d, ?_, hlate.trans hputs.late⟩
    rw [foldl_cons, settleOne_of_noParked now w hp, hd]

/-- A piece of a flush keeps the count. -/
theorem Counted.advances {r : ℕ} {f f' : Flight} (h : Counted ids n r tb f)
    (hadv : Advances tb f tb' f') : Counted ids n r tb' f' := by
  have hmid := mid_advances h.mid hadv
  have htraces : ∀ {id tr}, tb'.traces.lookup id = some tr → Rooted ids tr := fun hx => by
    rw [(hadv.traces h.mid.kept).1] at hx
    exact h.roots.traces hx
  have hcounts := h.counts
  cases hadv with
  | @decide now all tr todo weights kept lookup =>
    have htr := h.todo tr mem_cons_self
    have hrest : ∀ x ∈ todo, Rooted ids x := fun x hx => h.todo x (mem_cons_of_mem _ hx)
    have hkeep := counts_keepWeight tb lookup now htr.count
    have hheld := TraceBuffer.keepWeight_allHeld tb h.roots.held lookup tr now
    have hdrop := counts_drop (tb.keepWeight lookup tr now).2.2
      { tr with droppedAs := .sampledOut } now htr.count
    simp only [Flight.counts, spansOf_cons, rootCount_append] at hcounts
    rcases Nat.eq_zero_or_pos (tb.keepWeight lookup tr now).1 with hw | hw
    · rw [decideTrace_drops hw] at hmid htraces ⊢
      refine ⟨hmid, ⟨hmid.kept, htraces, oneRoot_drop hheld _ now htr.count⟩, hrest, ?_, h.refused⟩
      rw [if_pos hw, hw] at hkeep
      simp only [Flight.counts, TraceBuffer.counts, TraceBuffer.drop, append_nil, hdrop]
        at hcounts ⊢
      simp only [Nat.cast_zero, zero_mul, add_zero] at hkeep
      omega
    · rw [decideTrace_keeps hw] at hmid htraces ⊢
      refine ⟨hmid, ⟨hmid.kept, htraces, hheld⟩, hrest, ?_, h.refused⟩
      rw [if_neg (by omega)] at hkeep
      simp only [Flight.counts, TraceBuffer.counts, spansOf_append, spansOf_cons, spansOf_nil,
        append_nil, rootWeight_append, rootWeight_stampWeight] at hcounts ⊢
      omega
  | @carriers now all weights kept =>
    have hexp := counts_expired h.roots.held now all
    refine ⟨hmid, ⟨hmid.kept, htraces, (h.roots.held.expired now all).1⟩, forall_mem_nil _, ?_,
      h.refused⟩
    simp only [Flight.counts, TraceBuffer.counts, TraceBuffer.carriers, spansOf_append, spansOf_nil,
      rootWeight_append, rootSum_nil] at hcounts ⊢
    omega
  | @settle now weights kept =>
    obtain ⟨d, hd, hlate⟩ := settleAll_of_noParked weights now h.mid.noParked
    have hset : tb.settle weights now = ({ tb with decided := d.takeLate.2 }, d.late) := by
      rw [TraceBuffer.settle, hd]; rfl
    rw [hset] at hmid ⊢
    refine ⟨hmid, ⟨hmid.kept, h.roots.traces, h.roots.held⟩, forall_mem_nil _, ?_, h.refused⟩
    simp only [Flight.counts, TraceBuffer.counts, DecidedTraces.takeLate, batches_flatten, hlate,
      rootWeight_append, rootSum_nil] at hcounts ⊢
    omega
  | @deliver spans rest lost ok =>
    cases ok with
    | true =>
      refine ⟨hmid, ⟨hmid.kept, htraces, h.roots.held⟩, forall_mem_nil _, ?_, h.refused⟩
      simp only [Flight.counts, TraceBuffer.counts, TraceBuffer.deliverBatch, if_true,
        flatten_append, flatten_cons, flatten_nil, append_nil,
        rootWeight_append] at hcounts ⊢
      omega
    | false =>
      refine ⟨hmid, ⟨hmid.kept, htraces, h.roots.held⟩, forall_mem_nil _, ?_, h.refused⟩
      simp only [Flight.counts, TraceBuffer.counts, TraceBuffer.deliverBatch, Bool.false_eq_true,
        if_false, flatten_append, flatten_cons, flatten_nil, append_nil,
        rootWeight_append] at hcounts ⊢
      omega
  | finish => exact ⟨hmid, ⟨hmid.kept, htraces, h.roots.held⟩, h.todo, hcounts, h.refused⟩

theorem gains_flush (h : Roots ids tb) (hw : Whole tb) (now : ℤ) (all : Bool) (lookup : ℕ → Lookup)
    (ok : ℕ → Bool) :
    Roots ids (tb.flush now all lookup ok).1 ∧ Gains tb (tb.flush now all lookup ok).1 0 := by
  have hdone := flush_induct (fun _ _ _ _ h hadv => Counted.advances h hadv) lookup ok
    (counted_start now all hw h)
  exact ⟨hdone.roots, .of_same (by simpa [Flight.counts] using hdone.counts) hdone.refused⟩

/-! ### Whole runs -/

/-- A call as a step of a run. -/
def callStep (tb : TraceBuffer) (c : Call) : Option TraceBuffer := some (call tb c)

/-- The call adds no root span too late. -/
def Call.InTime (tb : TraceBuffer) : Call → Prop
  | .add _ rec => Ingest.InTime tb rec
  | _ => True

instance (tb : TraceBuffer) (c : Call) : Decidable (c.InTime tb) := by
  cases c <;> unfold Call.InTime <;> infer_instance

theorem gains_call (h : Roots ids tb) (hw : Whole tb) (c : Call) (ht : c.InTime tb)
    (hnew : (ids ++ rootIDs c.added).Nodup) :
    Roots (ids ++ rootIDs c.added) (call tb c) ∧ Gains tb (call tb c) (rootCount c.added) := by
  cases c with
  | add env rec =>
    refine gains_add h hw env ht fun hr hin => ?_
    refine (disjoint_of_nodup_append hnew) hin ?_
    simp [Call.added, rootIDs, hr]
  | flush now all lookup ok =>
    obtain ⟨hroots, hg⟩ := gains_flush h hw now all lookup ok
    exact ⟨by simpa [call, Call.added, rootIDs] using hroots, by simpa [call, Call.added] using hg⟩
  | sweep now =>
    have hroots : Roots ids (call tb (.sweep now)) :=
      ⟨⟨h.kept.keys, h.kept.latched, h.kept.rescued, h.kept.carried, h.kept.parked⟩, h.traces, h.held⟩
    exact ⟨by simpa [Call.added, rootIDs] using hroots, by simpa [Call.added] using .of_same rfl rfl⟩

/-- Every run counts the root spans added, but for those refused. -/
theorem gains_calls : ∀ (cs : List Call) {ids : List String} {tb : TraceBuffer}, Roots ids tb →
    Whole tb → Meets callStep (fun tb c => c.InTime tb) tb cs →
    (ids ++ rootIDs (cs.flatMap Call.added)).Nodup →
    Roots (ids ++ rootIDs (cs.flatMap Call.added)) (calls tb cs) ∧
      Gains tb (calls tb cs) (rootCount (cs.flatMap Call.added))
  | [], ids, tb, h, _, _, _ => ⟨by simpa [calls, rootIDs] using h, .of_same rfl rfl⟩
  | c :: cs, ids, tb, h, hw, hm, hnd => by
    have hsplit : rootIDs ((c :: cs).flatMap Call.added) =
        rootIDs c.added ++ rootIDs (cs.flatMap Call.added) := by
      simp [rootIDs]
    rw [hsplit, ← append_assoc] at hnd ⊢
    obtain ⟨hroots, hg⟩ := gains_call h hw c hm.1 (List.Nodup.of_append_left hnd)
    obtain ⟨hroots', hg'⟩ := gains_calls cs hroots (whole_call c hw) (hm.2 _ rfl) hnd
    refine ⟨hroots', ?_⟩
    rw [flatMap_cons, rootCount_append]
    exact hg.trans hg'

theorem roots_new (cfg : Config) : Roots [] (newTraceBuffer cfg) :=
  ⟨kept_new cfg, fun h => by simp [newTraceBuffer] at h, allHeld_new _⟩

/-! ### Close -/

/-- How far the last flush has emptied the buffer. -/
def Emptied (tb : TraceBuffer) : Flight → Prop
  | .deciding _ all _ _ _ => all = true
  | .settling _ _ _ => tb.carry.m = ∅
  | _ => tb.carry.m = ∅ ∧ tb.decided.late = []

/-- Nothing is left in a buffer after `Close`. -/
structure Closed (tb : TraceBuffer) (f : Flight) : Prop where
  mid : Mid tb f
  traces : tb.traces = ∅
  rescued : tb.rescuedAtCap = []
  emptied : Emptied tb f

theorem Closed.advances {f f' : Flight} (h : Closed tb f) (hadv : Advances tb f tb' f') :
    Closed tb' f' := by
  obtain ⟨ht, hr⟩ := hadv.traces h.mid.kept
  refine ⟨mid_advances h.mid hadv, ht.trans h.traces, hr.trans h.rescued, ?_⟩
  have he := h.emptied
  cases hadv with
  | decide lookup => exact he
  | carriers =>
    obtain rfl := he
    exact expired_all tb.carry _
  | @settle now weights kept =>
    obtain ⟨d, hd, -⟩ := settleAll_of_noParked weights now h.mid.noParked
    have hset : (tb.settle weights now).1 = { tb with decided := d.takeLate.2 } := by
      rw [TraceBuffer.settle, hd]
    rw [hset]
    exact ⟨he, rfl⟩
  | deliver ok => cases ok <;> exact he
  | finish => exact he

theorem closed_flush (hw : Whole tb) (now : ℤ) (lookup : ℕ → Lookup) (ok : ℕ → Bool) :
    Closed (tb.flush now true lookup ok).1 .done := by
  refine flush_induct (fun _ _ _ _ h hadv => Closed.advances h hadv) lookup ok ?_
  obtain ⟨ht, hr⟩ := start_all_empty now hw.kept
  exact ⟨mid_start now true hw, ht, hr, rfl⟩

/-- What a closed buffer counts was delivered, given up on, or is uncarried. -/
theorem Closed.counts (h : Closed tb .done) :
    tb.counts = rootWeight (tb.out ++ tb.undelivered).flatten + tb.carry.uncarriedTotal := by
  simp [TraceBuffer.counts, CarryTally.counts, h.traces, h.rescued, h.emptied.1, h.emptied.2]

/-- CORRECT: after any calls and `Close`, with no span refused and no batch given up on, the weights of
    the delivered root spans and the uncarried drops add up to the traces whose root span was added,
    if no root span came after its trace was decided with a weight other than one. -/
theorem traces_counted_once (cfg : Config) (cs : List Call) (now : ℤ) (lookup : ℕ → Lookup)
    (ok : ℕ → Bool) (hone : (rootIDs (cs.flatMap Call.added)).Nodup)
    (htime : Meets callStep (fun tb c => c.InTime tb) (newTraceBuffer cfg) cs) :
    let tb := ((calls (newTraceBuffer cfg) cs).flush now true lookup ok).1
    tb.refusedTotal = 0 → tb.undelivered = [] →
      rootWeight tb.out.flatten + tb.carry.uncarriedTotal =
        (rootIDs (cs.flatMap Call.added)).dedup.length := by
  intro tb hrefused hlost
  have hw := whole_calls cs (whole_new cfg)
  obtain ⟨hroots, hg⟩ := gains_calls cs (roots_new cfg) (whole_new cfg) htime (by simpa using hone)
  obtain ⟨-, hclose⟩ := gains_flush hroots hw now true lookup ok
  have hcounts := (closed_flush hw now lookup ok).counts
  obtain ⟨hle, hge⟩ := hg.trans hclose
  have hnew : (newTraceBuffer cfg).counts = 0 := rfl
  have hlen : rootCount (cs.flatMap Call.added) = (rootIDs (cs.flatMap Call.added)).length := by
    rw [rootCount_eq, rootIDs, length_map]
  rw [List.Nodup.dedup hone]
  change tb.counts = rootWeight (tb.out ++ tb.undelivered).flatten + tb.carry.uncarriedTotal at hcounts
  change tb.counts ≤ _ at hle
  change _ ≤ tb.counts + tb.refusedTotal at hge
  rw [hlost, append_nil] at hcounts
  rw [hnew, hlen] at hle hge
  have hzero : (newTraceBuffer cfg).refusedTotal = 0 := rfl
  rw [hrefused, hzero] at hge
  push_cast at hge
  omega

/-- A root span of a trace a ratio of 1000 drops, and one of a trace of the same operation it keeps. -/
def droppedThenKept : List Call :=
  [.add ⟨0, none⟩ (rare "1" "ok"),
    .add ⟨1, none⟩ { projectID := 1, traceID := "t", spanID := "2", name := "op" },
    .flush 200 false (fun _ => none) fun _ => true]

/-- The kept root span counts for both traces. -/
theorem traces_counted_once_carried :
    let tb := ((calls (newTraceBuffer { ttl := 100, maxSpans := 10 }) droppedThenKept).flush 300 true
      (fun _ => none) fun _ => true).1
    tb.out.flatten.map SpanRecord.sampleWeight = [2] ∧
      rootWeight tb.out.flatten + tb.carry.uncarriedTotal =
        (rootIDs (droppedThenKept.flatMap Call.added)).dedup.length :=
  ⟨rfl, traces_counted_once { ttl := 100, maxSpans := 10 } droppedThenKept 300 (fun _ => none)
    (fun _ => true) (by decide) (by decide) rfl rfl⟩

/-- A child span is decided alone when the TTL is over, and its root span comes after that. -/
def rootAfterDecision : List Call :=
  [.add ⟨0, some fun _ _ => 10⟩ { projectID := 1, traceID := "t", spanID := "2", parentSpanID := "1" },
    .flush 100 false (fun _ => some fun _ _ => 10) fun _ => true,
    .add ⟨101, some fun _ _ => 10⟩ { projectID := 1, traceID := "t", spanID := "1" }]

/-- Nothing is an error, slow, refused, lost or forgotten, and yet the root span takes on the weight of
    the part decided without it: one trace counts as ten. -/
theorem root_after_decision_counts_ten :
    let mid := calls (newTraceBuffer { ttl := 100, maxSpans := 10 }) (rootAfterDecision.take 2)
    let tb := ((calls (newTraceBuffer { ttl := 100, maxSpans := 10 }) rootAfterDecision).flush 102 true
      (fun _ => some fun _ _ => 10) fun _ => true).1
    (∀ r ∈ rootAfterDecision.flatMap Call.added, r.isError = false) ∧
      mid.rescue.slowThresholdUs = 0 ∧ mid.decided.m.lookup "t" = some ⟨10, 1, false⟩ ∧
      (rootIDs (rootAfterDecision.flatMap Call.added)).Nodup ∧ tb.refusedTotal = 0 ∧
      tb.undelivered = [] ∧ tb.decided.evicted = 0 ∧
      rootWeight tb.out.flatten + tb.carry.uncarriedTotal = 10 ∧
      (rootIDs (rootAfterDecision.flatMap Call.added)).dedup.length = 1 := by
  refine ⟨by decide, rfl, rfl, by decide, rfl, rfl, rfl, rfl, by decide⟩

end Spanbarn.Ingest
