import Mathlib.Algebra.Order.Group.Multiset
import Mathlib.Data.Multiset.Basic
import Spanbarn.Ingest.Flush

/-! Where the spans are, and how they move.

    The stock of a buffer is the bag of spans it holds, the bag of spans it has handed to the drain, and
    the balance of its ledger. Every piece of `Add` and of a flush is a flow between two stocks:

        enter ──▶ stock ──▶ left     counted by the ledger
                    └─────▶ lost     thrown away uncounted

    Bags forget the sample weight, which stamping changes. -/

namespace Spanbarn.Ingest
open List Spanbarn.Model Spanbarn.Schemes Spanbarn.Ledger Spanbarn.Sampling

/-! ### Bags of spans -/

/-- The spans of a list whatever their order and weight. -/
def bag (l : List SpanRecord) : Multiset SpanRecord := ↑(l.map (·.weighted 0))

@[simp] theorem bag_nil : bag [] = 0 := rfl

@[simp] theorem bag_append (a b : List SpanRecord) : bag (a ++ b) = bag a + bag b := by
  simp [bag]

@[simp] theorem card_bag (l : List SpanRecord) : Multiset.card (bag l) = l.length := by
  simp [bag]

@[simp] theorem bag_weighted (l : List SpanRecord) (w : ℤ) : bag (l.map (·.weighted w)) = bag l := by
  simp [bag, Function.comp_def, SpanRecord.weighted]

theorem bag_weighted_singleton (r : SpanRecord) (w : ℤ) : bag [r.weighted w] = bag [r] :=
  bag_weighted [r] w

/-- The spans of some traces, one after the other. -/
def spansOf (trs : List BufferedTrace) : List SpanRecord := trs.flatMap BufferedTrace.spans

@[simp] theorem spansOf_nil : spansOf [] = [] := rfl

@[simp] theorem spansOf_cons (tr : BufferedTrace) (trs : List BufferedTrace) :
    spansOf (tr :: trs) = tr.spans ++ spansOf trs := rfl

@[simp] theorem spansOf_append (a b : List BufferedTrace) :
    spansOf (a ++ b) = spansOf a ++ spansOf b := by
  simp [spansOf]

/-- No span of the list carries an error. -/
def Clean (l : List SpanRecord) : Prop := ∀ r ∈ l, r.isError = false

theorem clean_nil : Clean [] := forall_mem_nil _

theorem Clean.append {a b : List SpanRecord} (ha : Clean a) (hb : Clean b) : Clean (a ++ b) :=
  fun r hr => (mem_append.mp hr).elim (ha r) (hb r)

variable {l : List SpanRecord}

theorem Clean.weighted (h : Clean l) (w : ℤ) :
    Clean (l.map (·.weighted w)) := by
  intro r hr
  obtain ⟨s, hs, rfl⟩ := mem_map.mp hr
  exact h s hs

/-! ### Stocks and flows -/

structure Stock where
  holds : Multiset SpanRecord
  handed : Multiset SpanRecord
  balance : ℤ

/-- The stock together with spans that a piece has in its hands. -/
def Stock.plus (s : Stock) (l : List SpanRecord) : Stock := { s with holds := s.holds + bag l }

@[simp] theorem Stock.plus_nil (s : Stock) : s.plus [] = s := by simp [Stock.plus]

theorem Stock.plus_append (s : Stock) (a b : List SpanRecord) :
    s.plus (a ++ b) = (s.plus a).plus b := by
  simp [Stock.plus, add_assoc]

/-- A movement: what came in and what left is in the ledger, what was lost is not; what is handed to the
    drain stays in the stock's account. -/
structure Flow (s s' : Stock) (enter left lost : List SpanRecord) : Prop where
  spans : s'.holds + s'.handed + bag left + bag lost = s.holds + s.handed + bag enter
  ledger : s'.balance + Multiset.card s'.handed + left.length =
    s.balance + Multiset.card s.handed + enter.length

theorem Flow.refl (s : Stock) : Flow s s [] [] [] := ⟨by simp, rfl⟩

variable {e k : List SpanRecord}

theorem Flow.trans {a b c : Stock} {e' l' k' : List SpanRecord} (h : Flow a b e l k)
    (h' : Flow b c e' l' k') : Flow a c (e ++ e') (l ++ l') (k ++ k') := by
  refine ⟨?_, ?_⟩
  · simp only [bag_append]
    calc c.holds + c.handed + (bag l + bag l') + (bag k + bag k')
        = c.holds + c.handed + bag l' + bag k' + (bag l + bag k) := by ac_rfl
      _ = b.holds + b.handed + bag l + bag k + bag e' := by rw [h'.spans]; ac_rfl
      _ = a.holds + a.handed + (bag e + bag e') := by rw [h.spans]; ac_rfl
  · have h1 := h.ledger
    have h2 := h'.ledger
    simp only [length_append, Nat.cast_add]
    omega

theorem Flow.plus {s s' : Stock} (h : Flow s s' e l k) (x : List SpanRecord) :
    Flow (s.plus x) (s'.plus x) e l k := by
  refine ⟨?_, h.ledger⟩
  calc s'.holds + bag x + s'.handed + bag l + bag k
      = s'.holds + s'.handed + bag l + bag k + bag x := by ac_rfl
    _ = s.holds + bag x + s.handed + bag e := by rw [h.spans]; ac_rfl

/-- The spans in hand may be listed in another order. -/
theorem Flow.congr {s s' : Stock} {a a' b b' : List SpanRecord}
    (h : Flow (s.plus a) (s'.plus b) e l k) (ha : bag a = bag a') (hb : bag b = bag b') :
    Flow (s.plus a') (s'.plus b') e l k := by
  obtain ⟨h1, h2⟩ := h
  simp only [Stock.plus] at h1 h2
  exact ⟨by simpa only [Stock.plus, ← ha, ← hb] using h1, h2⟩

/-! ### The stock of a buffer -/

/-- The spans the buffer holds. -/
def TraceBuffer.bags (tb : TraceBuffer) : Multiset SpanRecord :=
  total (fun tr => bag tr.spans) tb.traces + bag (spansOf tb.rescuedAtCap) +
    total bag tb.decided.held + bag tb.decided.late

def TraceBuffer.stock (tb : TraceBuffer) : Stock where
  holds := tb.bags
  handed := bag (tb.out ++ tb.undelivered).flatten
  balance := balance tb.ledger

/-- The spans a flush has in its hands. -/
def Flight.spans : Flight → List SpanRecord
  | .deciding _ _ todo _ kept => spansOf todo ++ spansOf kept
  | .settling _ _ kept => spansOf kept
  | .delivering batches _ => batches.flatten
  | .done => []

theorem total_parked (d : DecidedTraces) (id : String) :
    total bag (d.held.erase id) + bag (d.parked id) = total bag d.held := by
  unfold DecidedTraces.parked
  cases h : d.held.lookup id with
  | none => rw [total_erase_of_none h]; simp
  | some l => exact total_erase h

variable {id : String}

/-- Recording a decision takes the parked spans of the trace out. -/
theorem puts_bags {weight : ℕ} {pending : Bool} {d d' : DecidedTraces}
    (h : Puts id weight pending d d') :
    total bag d'.held + bag d'.late + bag (d.parked id) = total bag d.held + bag d.late := by
  rw [h.held, h.late, ← total_parked d id]
  ac_rfl

/-! ### What is kept of every trace -/

/-- A span's error is latched on its trace. -/
def BufferedTrace.Latched (tr : BufferedTrace) : Prop :=
  ∀ r ∈ tr.spans, r.isError = true → tr.hasError = true

/-- A dropped trace that may come back as a carrier. -/
structure Carrier (tr : BufferedTrace) : Prop where
  clean : Clean tr.spans
  exit : tr.droppedAs.sign = -1

variable {tr : BufferedTrace}

theorem BufferedTrace.Latched.clean (h : tr.Latched) (herr : tr.hasError = false) :
    Clean tr.spans := by
  intro r hr
  cases hc : r.isError with
  | false => rfl
  | true => exact absurd (h r hr hc) (by simp [herr])

theorem carrier_of_latched {col : Column} (h : tr.Latched) (herr : tr.hasError = false)
    (hcol : col.sign = -1) : Carrier { tr with droppedAs := col } :=
  ⟨h.clean herr, hcol⟩

/-- What holds of the buffer at all times. -/
structure Kept (tb : TraceBuffer) : Prop where
  keys : ∀ {id tr}, tb.traces.lookup id = some tr → tr.id = id
  latched : ∀ {id tr}, tb.traces.lookup id = some tr → tr.Latched
  rescued : ∀ tr ∈ tb.rescuedAtCap, Clean tr.spans
  carried : tb.carry.AllHeld Carrier
  parked : ∀ {id l}, tb.decided.held.lookup id = some l → ∀ r ∈ l, r.traceID = id

theorem kept_new (cfg : Config) : Kept (newTraceBuffer cfg) := by
  refine ⟨fun h => ?_, fun h => ?_, forall_mem_nil _, allHeld_new _, fun h => ?_⟩
  all_goals simp [newTraceBuffer, newDecidedTraces] at h

variable {tb : TraceBuffer}

theorem Kept.lookup_id (h : Kept tb) (hl : tb.traces.lookup id = some tr) :
    tb.traces.lookup tr.id = some tr := by
  rw [h.keys hl]; exact hl

theorem Kept.mem_parked (h : Kept tb) {r : SpanRecord} (hr : r ∈ tb.decided.parked id) :
    r.traceID = id := by
  unfold DecidedTraces.parked at hr
  cases hl : tb.decided.held.lookup id with
  | none => rw [hl] at hr; simp at hr
  | some l => rw [hl] at hr; exact h.parked hl r hr

theorem Puts.parked_of {weight : ℕ} {pending : Bool} {d d' : DecidedTraces}
    (h : Puts id weight pending d d')
    (hd : ∀ {k l}, d.held.lookup k = some l → ∀ r ∈ l, r.traceID = k) :
    ∀ {k l}, d'.held.lookup k = some l → ∀ r ∈ l, r.traceID = k := by
  intro k l hl
  rw [h.held] at hl
  exact hd (lookup_of_erase hl).2

/-! ### Eviction -/

variable {tb' : TraceBuffer} {now : ℤ}

theorem Evicts.traces_eq (h : Evicts tb now tr tb') : tb'.traces = tb.traces.erase tr.id := by
  cases h with
  | rescued w hw ht => exact ht
  | dropped col hcol ht => exact ht

theorem Evicts.puts (h : Evicts tb now tr tb') :
    ∃ w, Puts tr.id w false tb.decided tb'.decided := by
  cases h with
  | rescued w hw ht hr hl hd => exact ⟨w, hd ▸ puts_put ..⟩
  | dropped col hcol ht hr hl hd => exact ⟨0, hd ▸ puts_put ..⟩

variable {keep : Option String}

theorem Evicts.kept (h : Evicts tb now tr tb') (hv : Victim tb keep tr) (hk : Kept tb) :
    Kept tb' := by
  obtain ⟨id, hid⟩ := hv.buffered
  have hlatched := hk.latched hid
  obtain ⟨w, hputs⟩ := h.puts
  have hsub : ∀ {k x}, tb'.traces.lookup k = some x → tb.traces.lookup k = some x := fun hx => by
    rw [h.traces_eq] at hx
    exact (lookup_of_erase hx).2
  refine ⟨fun hx => hk.keys (hsub hx), fun hx => hk.latched (hsub hx), ?_, ?_,
    hputs.parked_of hk.parked⟩
  · cases h with
    | rescued w hw ht hr =>
      intro x hx
      rw [hr] at hx
      rcases mem_append.mp hx with hx | hx
      · exact hk.rescued x hx
      · rw [mem_singleton.mp hx]
        exact (hlatched.clean hv.noError).weighted w
    | dropped col hcol ht hr => rw [hr]; exact hk.rescued
  · cases h with
    | rescued w hw ht hr hl hd hh => exact hh _ hk.carried
    | dropped col hcol ht hr hl hd hh =>
      refine hh _ hk.carried (carrier_of_latched hlatched hv.noError ?_)
      rcases hcol with rfl | rfl <;> rfl

/-- An eviction moves the trace aside or out, and throws its parked spans away. -/
theorem Evicts.flow (h : Evicts tb now tr tb') (hl : tb.traces.lookup tr.id = some tr) :
    ∃ left, (left = [] ∨ left = tr.spans) ∧
      Flow tb.stock tb'.stock [] left (tb.decided.parked tr.id) := by
  obtain ⟨w, hputs⟩ := h.puts
  have hd := puts_bags hputs
  have ht : total (fun tr => bag tr.spans) tb'.traces + bag tr.spans =
      total (fun tr => bag tr.spans) tb.traces := by
    rw [h.traces_eq]; exact total_erase (f := fun tr => bag tr.spans) hl
  cases h with
  | rescued w hw _ hr hledger _ _ hout =>
    refine ⟨[], .inl rfl, ?_, ?_⟩
    · simp only [TraceBuffer.stock, TraceBuffer.bags, hout.1, hout.2, hr, ← ht, spansOf_append,
        spansOf_cons, spansOf_nil, BufferedTrace.stampWeight, bag_append, bag_weighted, bag_nil,
        append_nil, add_zero]
      calc _ = total (fun tr => bag tr.spans) tb'.traces + (bag (spansOf tb.rescuedAtCap) +
              bag tr.spans) + (total bag tb'.decided.held + bag tb'.decided.late +
              bag (tb.decided.parked tr.id)) + bag (tb.out ++ tb.undelivered).flatten := by ac_rfl
        _ = _ := by rw [hd]; ac_rfl
    · simp [TraceBuffer.stock, hledger, hout.1, hout.2]
  | dropped col hcol _ hr hledger _ _ hout =>
    have hsign : col.sign = -1 := by rcases hcol with rfl | rfl <;> rfl
    refine ⟨tr.spans, .inr rfl, ?_, ?_⟩
    · simp only [TraceBuffer.stock, TraceBuffer.bags, hout.1, hout.2, hr, ← ht, bag_nil, add_zero]
      calc _ = total (fun tr => bag tr.spans) tb'.traces + bag tr.spans +
              bag (spansOf tb.rescuedAtCap) + (total bag tb'.decided.held + bag tb'.decided.late +
              bag (tb.decided.parked tr.id)) + bag (tb.out ++ tb.undelivered).flatten := by ac_rfl
        _ = _ := by rw [hd]; ac_rfl
    · simp only [TraceBuffer.stock, hledger, hout.1, hout.2, balance_addSpans, hsign,
        length_nil, Nat.cast_zero, add_zero]
      omega

/-- No trace that may be evicted for a span of `keep` has parked spans. -/
def Unparked (tb : TraceBuffer) (keep : Option String) : Prop :=
  ∀ tr, Victim tb keep tr → tb.decided.parked tr.id = []

theorem Unparked.evicts (hu : Unparked tb keep) (h : Evicts tb now tr tb') : Unparked tb' keep := by
  obtain ⟨w, hputs⟩ := h.puts
  rintro x ⟨⟨id, hid⟩, herr, hother⟩
  rw [h.traces_eq] at hid
  rw [hputs.parked]
  split
  · rfl
  · exact hu x ⟨⟨id, (lookup_of_erase hid).2⟩, herr, hother⟩

/-- Making room: clean spans leave, and none is lost as long as no victim has parked spans. -/
theorem ensureRoom_flow (env : Env) (hk : Kept tb) (hu : Unparked tb keep) :
    Kept (tb.ensureRoom env keep).2 ∧ Unparked (tb.ensureRoom env keep).2 keep ∧
      ∃ left, Clean left ∧ Flow tb.stock (tb.ensureRoom env keep).2.stock [] left [] := by
  refine ensureRoom_induct
    (P := fun t => Kept t ∧ Unparked t keep ∧ ∃ left, Clean left ∧ Flow tb.stock t.stock [] left [])
    ?_ ?_ ⟨hk, hu, [], clean_nil, .refl _⟩
  · rintro t q q' ⟨⟨h1, h2, h3, h4, h5⟩, hu, hf⟩
    exact ⟨⟨h1, h2, h3, h4, h5⟩, fun x ⟨hb, he, ho⟩ => hu x ⟨hb, he, ho⟩, hf⟩
  · rintro t tr t' ⟨hk, hu, left, hleft, hf⟩ hv he
    obtain ⟨id, hid⟩ := hv.buffered
    obtain ⟨more, hmore, hflow⟩ := he.flow (hk.lookup_id hid)
    rw [hu tr hv] at hflow
    have hclean : Clean more := by
      rcases hmore with rfl | rfl
      · exact clean_nil
      · exact (hk.latched hid).clean hv.noError
    exact ⟨he.kept hv hk, hu.evicts he, left ++ more, hleft.append hclean, by
      simpa using hf.trans hflow⟩

/-- Making room leaves the trace it makes room for, and the traces with an error. -/
theorem ensureRoom_stays (env : Env) (hk : Kept tb) (hl : tb.traces.lookup id = some tr)
    (hs : tr.hasError = true ∨ keep = some id) :
    (tb.ensureRoom env keep).2.traces.lookup id = some tr := by
  refine (ensureRoom_induct (P := fun t => Kept t ∧ t.traces.lookup id = some tr) ?_ ?_
    ⟨hk, hl⟩).2
  · rintro t q q' ⟨⟨h1, h2, h3, h4, h5⟩, hl⟩
    exact ⟨⟨h1, h2, h3, h4, h5⟩, hl⟩
  · rintro t x t' ⟨hk, hl⟩ hv he
    refine ⟨he.kept hv hk, ?_⟩
    have hne : id ≠ x.id := by
      rintro rfl
      obtain ⟨k, hk'⟩ := hv.buffered
      obtain rfl : x = tr := Option.some.inj ((hk.lookup_id hk').symm.trans hl)
      rcases hs with hs | hs
      · exact absurd hs (by simp [hv.noError])
      · exact hv.other hs
    rw [he.traces_eq, AList.lookup_erase_ne hne]
    exact hl

/-- Making room adds no trace. -/
theorem ensureRoom_no_trace (env : Env) (keep : Option String) (hl : tb.traces.lookup id = none) :
    (tb.ensureRoom env keep).2.traces.lookup id = none := by
  refine ensureRoom_induct (P := fun t => t.traces.lookup id = none) (fun t q q' h => h) ?_ hl
  intro t x t' hl hv he
  rw [he.traces_eq]
  by_cases hne : id = x.id
  · rw [hne, AList.lookup_erase]
  · rw [AList.lookup_erase_ne hne]; exact hl

theorem ensureRoom_of_room {env : Env} (h : ¬ (0 < tb.maxSpans ∧ tb.maxSpans ≤ tb.spanCount)) :
    tb.ensureRoom env keep = (true, tb) := by
  rw [TraceBuffer.ensureRoom, TraceBuffer.ensureRoomFrom, if_neg h]

/-! ### Adding a span -/

@[simp] theorem latchRoot_id (tr : BufferedTrace) (env : Env) (rec : SpanRecord) :
    (tr.latchRoot env rec).id = tr.id := by
  unfold BufferedTrace.latchRoot
  split_ifs <;> rfl

@[simp] theorem latchRoot_spans (tr : BufferedTrace) (env : Env) (rec : SpanRecord) :
    (tr.latchRoot env rec).spans = tr.spans := by
  unfold BufferedTrace.latchRoot
  split_ifs <;> rfl

@[simp] theorem latchRoot_hasError (tr : BufferedTrace) (env : Env) (rec : SpanRecord) :
    (tr.latchRoot env rec).hasError = tr.hasError := by
  unfold BufferedTrace.latchRoot
  split_ifs <;> rfl

/-- The trace a span leaves when it joins one. -/
theorem lookup_append (tb : TraceBuffer) (env : Env) (tr : BufferedTrace) (rec : SpanRecord) :
    ∃ tr', (tb.append env tr rec).traces = tb.traces.insert tr.id tr' ∧ tr'.id = tr.id ∧
      tr'.spans = tr.spans ++ [rec] ∧ tr'.hasError = (tr.hasError || rec.isError) :=
  ⟨_, rfl, by simp, by simp, by simp⟩

variable {rec : SpanRecord}

theorem kept_append (hk : Kept tb) (env : Env) (hl : tr.Latched) : Kept (tb.append env tr rec) := by
  obtain ⟨tr', ht, hid, hspans, herr⟩ := lookup_append tb env tr rec
  have hlatched : tr'.Latched := by
    intro r hr hre
    rw [hspans] at hr
    rw [herr, Bool.or_eq_true]
    rcases mem_append.mp hr with hr | hr
    · exact .inl (hl r hr hre)
    · rw [mem_singleton.mp hr] at hre
      exact .inr hre
  refine ⟨fun {id x} hx => ?_, fun {id x} hx => ?_, hk.rescued, hk.carried, hk.parked⟩
  all_goals
    rw [ht] at hx
    rcases lookup_of_insert hx with ⟨rfl, rfl⟩ | ⟨-, hx⟩
  · exact hid
  · exact hk.keys hx
  · exact hlatched
  · exact hk.latched hx

theorem append_flow (env : Env) (rec : SpanRecord) (hl : tb.traces.lookup tr.id = some tr) :
    Flow (tb.stock.plus [rec]) (tb.append env tr rec).stock [] [] [] := by
  obtain ⟨tr', ht, hid, hspans, herr⟩ := lookup_append tb env tr rec
  have hsum : total (fun tr => bag tr.spans) (tb.append env tr rec).traces =
      total (fun tr => bag tr.spans) tb.traces + bag [rec] := by
    have hins := total_insert (f := fun tr => bag tr.spans) (v := tr') hl
    simp only [← ht, hspans, bag_append] at hins
    refine add_right_cancel (b := bag tr.spans) (hins.trans ?_)
    ac_rfl
  refine ⟨?_, rfl⟩
  simp only [Stock.plus, TraceBuffer.stock, TraceBuffer.bags, hsum, bag_nil, add_zero]
  change _ + bag (spansOf tb.rescuedAtCap) + total bag tb.decided.held + bag tb.decided.late +
    bag (tb.out ++ tb.undelivered).flatten = _
  ac_rfl

theorem kept_newTrace (hk : Kept tb) (env : Env) (rec : SpanRecord) :
    Kept (tb.newTrace env rec).2 ∧ (tb.newTrace env rec).1.Latched := by
  refine ⟨⟨fun {id x} hx => ?_, fun {id x} hx => ?_, hk.rescued, hk.carried, hk.parked⟩,
    forall_mem_nil _⟩
  all_goals rcases lookup_of_insert hx with ⟨rfl, rfl⟩ | ⟨-, hx⟩
  · rfl
  · exact hk.keys hx
  · exact forall_mem_nil _
  · exact hk.latched hx

theorem newTrace_lookup (tb : TraceBuffer) (env : Env) (rec : SpanRecord) :
    (tb.newTrace env rec).2.traces.lookup (tb.newTrace env rec).1.id =
      some (tb.newTrace env rec).1 :=
  AList.lookup_insert _

theorem newTrace_stock (env : Env) (hl : tb.traces.lookup rec.traceID = none) :
    (tb.newTrace env rec).2.stock = tb.stock := by
  have hsum : total (fun tr => bag tr.spans) (tb.newTrace env rec).2.traces =
      total (fun tr => bag tr.spans) tb.traces := by
    rw [TraceBuffer.newTrace, total_insert_of_none hl]
    simp
  unfold TraceBuffer.stock TraceBuffer.bags
  rw [hsum]
  rfl

theorem refuse_flow (tb : TraceBuffer) (rec : SpanRecord) :
    Flow (tb.stock.plus [rec]) (tb.refuse rec).stock [] [rec] [] := by
  refine ⟨?_, ?_⟩
  · simp only [Stock.plus, TraceBuffer.stock, TraceBuffer.bags, TraceBuffer.refuse, bag_nil, add_zero]
    ac_rfl
  · simp only [Stock.plus, TraceBuffer.stock, TraceBuffer.refuse, balance_add, Column.sign,
      length_nil, length_singleton]
    omega

/-- A span of a trace that is not decided is admitted, or refused when it is clean. -/
theorem admitSpan_flow (env : Env) {tr : Option BufferedTrace} (hk : Kept tb)
    (htr : tb.traces.lookup rec.traceID = tr)
    (hu : 0 < tb.maxSpans ∧ tb.maxSpans ≤ tb.spanCount → Unparked tb (tr.map BufferedTrace.id)) :
    Kept (tb.admitSpan env rec tr) ∧
      ∃ left, Clean left ∧ Flow (tb.stock.plus [rec]) (tb.admitSpan env rec tr).stock [] left [] := by
  have hroom : Kept (tb.ensureRoom env (tr.map BufferedTrace.id)).2 ∧ ∃ left, Clean left ∧
      Flow tb.stock (tb.ensureRoom env (tr.map BufferedTrace.id)).2.stock [] left [] := by
    by_cases hcap : 0 < tb.maxSpans ∧ tb.maxSpans ≤ tb.spanCount
    · obtain ⟨h1, -, h2⟩ := ensureRoom_flow env hk (hu hcap)
      exact ⟨h1, h2⟩
    · rw [ensureRoom_of_room hcap]
      exact ⟨hk, [], clean_nil, .refl _⟩
  obtain ⟨hk', left, hleft, hflow⟩ := hroom
  have hplus := hflow.plus [rec]
  unfold TraceBuffer.admitSpan
  simp only
  split
  · next hc =>
    have hclean : Clean [rec] := by
      intro r hr
      rw [mem_singleton.mp hr]
      simp only [Bool.and_eq_true, Bool.not_eq_true', Bool.or_eq_false_iff] at hc
      exact hc.2.1
    refine ⟨⟨hk'.keys, hk'.latched, hk'.rescued, hk'.carried, hk'.parked⟩, left ++ [rec],
      hleft.append hclean, ?_⟩
    simpa using hplus.trans (refuse_flow _ rec)
  · cases tr with
    | some tr =>
      have hl : (tb.ensureRoom env (some tr.id)).2.traces.lookup tr.id = some tr :=
        ensureRoom_stays env hk (hk.lookup_id htr) (.inr rfl)
      refine ⟨kept_append hk' env (hk.latched htr), left, hleft, ?_⟩
      simpa using hplus.trans (append_flow env rec hl)
    | none =>
      have hnone := ensureRoom_no_trace env none htr
      obtain ⟨hkn, hln⟩ := kept_newTrace hk' env rec
      refine ⟨kept_append hkn env hln, left, hleft, ?_⟩
      have happ := append_flow env rec (newTrace_lookup (tb.ensureRoom env none).2 env rec)
      rw [newTrace_stock env hnone] at happ
      simpa using hplus.trans happ

theorem total_park (d : DecidedTraces) (id : String) (l : List SpanRecord) :
    total bag (d.held.insert id (d.parked id ++ l)) = total bag d.held + bag l := by
  unfold DecidedTraces.parked
  cases h : d.held.lookup id with
  | none => rw [total_insert_of_none h]; simp [add_comm]
  | some k =>
    have hins := total_insert (f := bag) (v := k ++ l) h
    rw [bag_append] at hins
    refine add_right_cancel (b := bag k) (hins.trans ?_)
    ac_rfl

/-- Following a decision parks the span, keeps it, or drops it when it is clean. -/
theorem follow_flow {r : DecidedTraces × Tally} (hk : Kept tb)
    (h : tb.decided.follow tb.ledger rec = some r) :
    Kept (tb.followed r) ∧
      ∃ left, Clean left ∧ Flow (tb.stock.plus [rec]) (tb.followed r).stock [] left [] := by
  obtain ⟨e, hm, hf⟩ := follows_follow h
  cases hf with
  | parks hp =>
    refine ⟨⟨hk.keys, hk.latched, hk.rescued, hk.carried, fun {id l} hl x hx => ?_⟩, [], clean_nil,
      ?_, rfl⟩
    · rcases lookup_of_insert hl with ⟨rfl, rfl⟩ | ⟨-, hl⟩
      · rcases mem_append.mp hx with hx | hx
        · exact hk.mem_parked hx
        · rw [mem_singleton.mp hx]
      · exact hk.parked hl x hx
    · simp only [Stock.plus, TraceBuffer.stock, TraceBuffer.bags, TraceBuffer.followed, total_park,
        bag_nil, add_zero]
      ac_rfl
  | drops hp hw herr =>
    refine ⟨⟨hk.keys, hk.latched, hk.rescued, hk.carried, hk.parked⟩, [rec],
      fun x hx => by rw [mem_singleton.mp hx]; exact herr, ?_, ?_⟩
    · simp only [Stock.plus, TraceBuffer.stock, TraceBuffer.bags, TraceBuffer.followed, bag_nil,
        add_zero]
      ac_rfl
    · simp only [Stock.plus, TraceBuffer.stock, TraceBuffer.followed, balance_add, Column.sign,
        length_nil, length_singleton]
      omega
  | keeps hp hw hwe hmm =>
    refine ⟨⟨hk.keys, hk.latched, hk.rescued, hk.carried, hk.parked⟩, [], clean_nil, ?_, rfl⟩
    simp only [Stock.plus, TraceBuffer.stock, TraceBuffer.bags, TraceBuffer.followed, bag_append,
      bag_weighted_singleton, bag_nil, add_zero]
    ac_rfl

/-- At the cap, no trace that an `Add` of this span may evict has parked spans. -/
def AddUnparked (tb : TraceBuffer) (rec : SpanRecord) : Prop :=
  0 < tb.maxSpans ∧ tb.maxSpans ≤ tb.spanCount →
    (tb.traces.lookup rec.traceID).isSome = true ∨ tb.decided.m.lookup rec.traceID = none →
    ∀ tr ∈ values tb.traces, tr.hasError = false → tr.id ≠ rec.traceID →
      tb.decided.parked tr.id = []

instance (tb : TraceBuffer) (rec : SpanRecord) : Decidable (AddUnparked tb rec) := by
  unfold AddUnparked; infer_instance

theorem AddUnparked.unparked (h : AddUnparked tb rec) (hk : Kept tb) {tr : Option BufferedTrace}
    (htr : tb.traces.lookup rec.traceID = tr)
    (hd : tr = none → tb.decided.m.lookup rec.traceID = none)
    (hcap : 0 < tb.maxSpans ∧ tb.maxSpans ≤ tb.spanCount) :
    Unparked tb (tr.map BufferedTrace.id) := by
  rintro x ⟨⟨id, hid⟩, herr, hother⟩
  refine h hcap ?_ x (mem_values.mpr ⟨id, hid⟩) herr ?_
  · cases tr with
    | none => exact .inr (hd rfl)
    | some tr => exact .inl (by rw [htr]; rfl)
  · intro he
    have hx : tb.traces.lookup rec.traceID = some x := by rw [← he]; exact hk.lookup_id hid
    rw [htr] at hx
    exact hother (by rw [hx]; rfl)

theorem accept_flow (tb : TraceBuffer) (rec : SpanRecord) :
    Flow tb.stock ((tb.accept rec).stock.plus [rec]) [rec] [] [] := by
  refine ⟨?_, ?_⟩
  · simp only [Stock.plus, TraceBuffer.stock, TraceBuffer.bags, TraceBuffer.accept, bag_nil, add_zero]
    ac_rfl
  · simp only [Stock.plus, TraceBuffer.stock, TraceBuffer.accept, balance_add, Column.sign,
      length_nil, length_singleton]
    omega

theorem route_flow (env : Env) (hk : Kept tb) (hu : AddUnparked tb rec) :
    Kept (tb.route env rec) ∧
      ∃ left, Clean left ∧ Flow (tb.stock.plus [rec]) (tb.route env rec).stock [] left [] := by
  unfold TraceBuffer.route
  cases htr : tb.traces.lookup rec.traceID with
  | some tr => exact admitSpan_flow env hk htr fun hcap => hu.unparked hk htr nofun hcap
  | none =>
    cases hfol : tb.decided.follow tb.ledger rec with
    | some r => exact follow_flow hk hfol
    | none =>
      exact admitSpan_flow env hk htr
        fun hcap => hu.unparked hk htr (fun _ => follow_eq_none.mp hfol) hcap

/-- `Add` takes one span in; what leaves is clean, and nothing is lost. -/
theorem add_flow (env : Env) (hk : Kept tb) (hu : AddUnparked tb rec) :
    Kept (tb.add env rec) ∧
      ∃ left, Clean left ∧ Flow tb.stock (tb.add env rec).stock [rec] left [] := by
  have hk' : Kept (tb.accept rec) := ⟨hk.keys, hk.latched, hk.rescued, hk.carried, hk.parked⟩
  obtain ⟨h1, left, hleft, hf⟩ := route_flow env hk' hu
  exact ⟨h1, left, hleft, by simpa [TraceBuffer.add] using (accept_flow tb rec).trans hf⟩

end Spanbarn.Ingest
