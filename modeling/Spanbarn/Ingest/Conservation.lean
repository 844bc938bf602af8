import Spanbarn.Ingest.FlushFlow
import Spanbarn.Schemes.Run

/-! Conservation of spans: what was accepted and has not left is in the buffer.

    `Add` calls and flushes interleave piece by piece. At every point the balance of the ledger is the
    number of spans held: in buffered traces, rescued at the cap, parked, late, or in the hands of a
    flush.

        Add · start · Add · decide · Add · … · settle · deliver · done

    One path forgets spans. `put` returns the parked spans of its trace, and only `settle` uses them.
    When the cap on decisions pushes out a pending decision, the next span of that trace starts a new
    buffered trace while spans of it are still parked; evicting that trace, or taking it out for a flush,
    throws them away. -/

namespace Spanbarn.Ingest
open List Spanbarn.Model Spanbarn.Schemes Spanbarn.Ledger Spanbarn.Sampling

/-! ### The system -/

/-- The buffer and the flushes on their way. -/
structure System where
  tb : TraceBuffer
  flights : List Flight := []

inductive Action where
  | add (env : Env) (rec : SpanRecord)
  | start (now : ℤ) (all : Bool)
  | advance (i : ℕ) (lookup : Lookup) (ok : Bool)
  | sweep (now : ℤ)

/-- One locked call or one unlocked piece of a flush; the sweep is the floor's own. -/
def step (s : System) : Action → Option System
  | .add env rec => some { s with tb := s.tb.add env rec }
  | .start now all =>
    some { tb := (s.tb.start now all).1, flights := s.flights ++ [(s.tb.start now all).2] }
  | .advance i lookup ok =>
    match s.flights[i]? with
    | none => none
    | some f => (advance lookup ok s.tb f).map fun r => ⟨r.1, s.flights.set i r.2⟩
  | .sweep now => some { s with tb := { s.tb with floor := s.tb.floor.map fun f => f.gc now } }

/-- All a step can do. -/
inductive Step (s : System) : Action → System → Prop
  | add (env : Env) (rec : SpanRecord) : Step s (.add env rec) { s with tb := s.tb.add env rec }
  | start (now : ℤ) (all : Bool) : Step s (.start now all)
      { tb := (s.tb.start now all).1, flights := s.flights ++ [(s.tb.start now all).2] }
  | advance {i lookup ok tb' f f' before after} (hf : s.flights = before ++ f :: after)
      (h : Advances s.tb f tb' f') : Step s (.advance i lookup ok) ⟨tb', before ++ f' :: after⟩
  | sweep {now floor} : Step s (.sweep now) { s with tb := { s.tb with floor := floor } }

theorem set_split {α : Type} : ∀ {l : List α} {i : ℕ} {a : α}, l[i]? = some a →
    ∃ before after, l = before ++ a :: after ∧ ∀ b, l.set i b = before ++ b :: after
  | x :: l, 0, a, h => by
    obtain rfl : x = a := by simpa using h
    exact ⟨[], l, rfl, fun _ => rfl⟩
  | x :: l, i + 1, a, h => by
    obtain ⟨before, after, hl, hset⟩ := set_split (l := l) (i := i) (a := a) (by simpa using h)
    exact ⟨x :: before, after, by rw [hl]; rfl, fun b => by rw [set_cons_succ, hset b]; rfl⟩

theorem Step.of_step {s s' : System} {a : Action} (h : step s a = some s') : Step s a s' := by
  cases a with
  | add env rec => cases h; exact .add env rec
  | start now all => cases h; exact .start now all
  | advance i lookup ok =>
    simp only [step] at h
    cases hf : s.flights[i]? with
    | none => simp [hf] at h
    | some f =>
      simp only [hf, Option.map_eq_some_iff] at h
      obtain ⟨⟨tb', f'⟩, hadv, rfl⟩ := h
      obtain ⟨before, after, hl, hset⟩ := set_split hf
      simp only [hset]
      exact .advance hl (advances_advance hadv)
  | sweep now => cases h; exact .sweep

/-! ### What the system holds -/

/-- Spans in the buffer: of traces, rescued at the cap, parked, and late. -/
def TraceBuffer.spansHeld (tb : TraceBuffer) : ℕ :=
  total (fun tr : BufferedTrace => tr.spans.length) tb.traces +
    (tb.rescuedAtCap.map fun tr => tr.spans.length).sum +
    total List.length tb.decided.held + tb.decided.late.length

/-- Spans in the buffer and in the hands of flushes. -/
def System.held (s : System) : ℕ :=
  s.tb.spansHeld + (s.flights.map fun f => f.spans.length).sum

theorem card_total {V : Type} (f : V → Multiset SpanRecord) (d : Dict String V) :
    Multiset.card (total f d) = total (fun v => Multiset.card (f v)) d := by
  unfold total
  induction values d with
  | nil => rfl
  | cons v vs ih => simp [ih]

theorem length_spansOf (trs : List BufferedTrace) :
    (spansOf trs).length = (trs.map fun tr => tr.spans.length).sum := by
  simp [spansOf, length_flatMap]

theorem card_bags (tb : TraceBuffer) : Multiset.card tb.bags = tb.spansHeld := by
  unfold TraceBuffer.bags TraceBuffer.spansHeld
  simp [card_total, length_spansOf]

/-- The spans in the hands of all flushes. -/
def System.inFlight (s : System) : List SpanRecord := s.flights.flatMap Flight.spans

theorem held_eq (s : System) :
    s.held = Multiset.card (s.tb.stock.plus s.inFlight).holds := by
  simp [System.held, System.inFlight, Stock.plus, TraceBuffer.stock, card_bags, length_flatMap]

/-! ### The invariant -/

/-- The balance of the ledger is what is held, parked spans are of traces a flush has yet to settle, and
    the buffer and the flushes are well kept. -/
structure Inv (s : System) : Prop where
  kept : Kept s.tb
  latched : ∀ f ∈ s.flights, f.Latched
  covers : Covers (fun id => ∃ f ∈ s.flights, id ∈ f.unsettled) s.tb.decided
  conserved : balance s.tb.ledger = s.held

/-- A flow without loss keeps the balance equal to what is held. -/
theorem Flow.conserved {a b : Stock} {e l : List SpanRecord} (h : Flow a b e l [])
    (ha : a.balance = Multiset.card a.holds) : b.balance = Multiset.card b.holds := by
  have h1 := congrArg Multiset.card h.spans
  have h2 := h.ledger
  simp only [Multiset.card_add, card_bag, bag_nil, Multiset.card_zero] at h1
  omega

/-- The condition under which a step forgets no parked span. -/
def ParkedStay (s : System) : Action → Prop
  | .add _ rec => AddUnparked s.tb rec
  | .start now all => DueUnparked s.tb now all
  | _ => True

instance (s : System) (a : Action) : Decidable (ParkedStay s a) := by
  unfold ParkedStay; split <;> infer_instance

theorem conserved_iff (s : System) :
    balance s.tb.ledger = s.held ↔
      (s.tb.stock.plus s.inFlight).balance = Multiset.card (s.tb.stock.plus s.inFlight).holds := by
  rw [held_eq]; rfl

theorem inv_add {s : System} (h : Inv s) (env : Env) {rec : SpanRecord}
    (hc : AddUnparked s.tb rec) : Inv { s with tb := s.tb.add env rec } := by
  obtain ⟨hk, left, -, hflow⟩ := add_flow env h.kept hc
  refine ⟨hk, h.latched, covers_add env rec h.covers, ?_⟩
  rw [conserved_iff]
  exact (hflow.plus s.inFlight).conserved ((conserved_iff s).mp h.conserved)

theorem inv_start {s : System} (h : Inv s) {now : ℤ} {all : Bool} (hc : DueUnparked s.tb now all) :
    Inv { tb := (s.tb.start now all).1, flights := s.flights ++ [(s.tb.start now all).2] } := by
  obtain ⟨hk, hflow⟩ := start_flow h.kept hc
  refine ⟨hk, fun f hf => ?_, (covers_start h.covers).mono fun id hid => ?_, ?_⟩
  · rcases mem_append.mp hf with hf | hf
    · exact h.latched f hf
    · rw [mem_singleton.mp hf]; exact start_latched h.kept
  · rcases hid with ⟨f, hf, hid⟩ | hid
    · exact ⟨f, mem_append_left _ hf, hid⟩
    · exact ⟨_, mem_append_right _ (mem_singleton.mpr rfl), hid⟩
  · rw [conserved_iff]
    have hp := hflow.plus s.inFlight
    rw [← Stock.plus_append] at hp
    refine (hp.congr rfl ?_).conserved ((conserved_iff s).mp h.conserved)
    simp [System.inFlight, add_comm]

theorem inv_advance {s : System} (h : Inv s) {tb' : TraceBuffer} {f f' : Flight}
    {before after : List Flight} (hf : s.flights = before ++ f :: after)
    (hadv : Advances s.tb f tb' f') : Inv ⟨tb', before ++ f' :: after⟩ := by
  have hmem : f ∈ s.flights := by rw [hf]; simp
  obtain ⟨hk, hlatched, enter, left, -, -, hflow⟩ := hadv.flow h.kept (h.latched f hmem)
  -- the other flushes keep their traces
  have hothers : ∀ g, g ∈ before ++ after → g ∈ s.flights ∧ g ∈ before ++ f' :: after := by
    intro g hg
    rw [hf]
    rcases mem_append.mp hg with hg | hg
    · exact ⟨mem_append_left _ hg, mem_append_left _ hg⟩
    · exact ⟨mem_append_right _ (mem_cons_of_mem _ hg),
        mem_append_right _ (mem_cons_of_mem _ hg)⟩
  have hsplit : ∀ {x g}, g ∈ before ++ x :: after → g = x ∨ g ∈ before ++ after := by
    intro x g hg
    simp only [mem_append, mem_cons] at hg ⊢
    tauto
  refine ⟨hk, fun g hg => ?_, ?_, ?_⟩
  · rcases hsplit hg with rfl | hg
    · exact hlatched
    · exact h.latched g (hothers g hg).1
  · have hc : Covers (fun id => (∃ g ∈ before ++ after, id ∈ g.unsettled) ∨ id ∈ f.unsettled)
        s.tb.decided := by
      refine h.covers.mono ?_
      rintro id ⟨g, hg, hid⟩
      rw [hf] at hg
      rcases hsplit hg with rfl | hg
      · exact .inr hid
      · exact .inl ⟨g, hg, hid⟩
    refine (hadv.covers h.kept hc).mono ?_
    rintro id (⟨g, hg, hid⟩ | hid)
    · exact ⟨g, (hothers g hg).2, hid⟩
    · exact ⟨f', by simp, hid⟩
  · rw [conserved_iff]
    have hp := hflow.plus (before.flatMap Flight.spans ++ after.flatMap Flight.spans)
    rw [← Stock.plus_append, ← Stock.plus_append] at hp
    have hall : Flow (s.tb.stock.plus s.inFlight)
        (tb'.stock.plus (System.inFlight ⟨tb', before ++ f' :: after⟩)) enter left [] := by
      refine hp.congr ?_ ?_
      · simp only [System.inFlight, hf, flatMap_append, flatMap_cons, bag_append]
        ac_rfl
      · simp only [System.inFlight, flatMap_append, flatMap_cons, bag_append]
        ac_rfl
    exact hall.conserved ((conserved_iff s).mp h.conserved)

theorem inv_step (s : System) (a : Action) (s' : System) (h : Inv s) (hc : ParkedStay s a)
    (hs : step s a = some s') : Inv s' := by
  cases Step.of_step hs with
  | add env rec => exact inv_add h env hc
  | start now all => exact inv_start h hc
  | advance hf hadv => exact inv_advance h hf hadv
  | sweep =>
    have hk := h.kept
    exact ⟨⟨hk.keys, hk.latched, hk.rescued, hk.carried, hk.parked⟩, h.latched, h.covers,
      h.conserved⟩

theorem inv_new (cfg : Config) : Inv ⟨newTraceBuffer cfg, []⟩ :=
  ⟨kept_new cfg, forall_mem_nil _, covers_new _ _, rfl⟩

/-! ### Closing -/

/-- The flush has settled its decisions. -/
def Flight.settled : Flight → Bool
  | .deciding .. | .settling .. => false
  | .delivering .. | .done => true

/-- What a closing flush keeps: the buffer holds nothing but what is late or parked for the flush. -/
structure Closing (tb : TraceBuffer) (f : Flight) : Prop where
  inv : Inv ⟨tb, [f]⟩
  traces : tb.traces = ∅
  rescued : tb.rescuedAtCap = []
  late : f.settled = true → tb.decided.late = []

theorem closing_advances {tb tb' : TraceBuffer} {f f' : Flight} (h : Closing tb f)
    (hadv : Advances tb f tb' f') : Closing tb' f' := by
  obtain ⟨ht, hr⟩ := hadv.traces h.inv.kept
  have hinv : Inv ⟨tb', [] ++ f' :: []⟩ := inv_advance h.inv rfl hadv
  refine ⟨hinv, ht.trans h.traces, hr.trans h.rescued, fun hs => ?_⟩
  cases hadv with
  | decide => cases hs
  | carriers => cases hs
  | settle => rfl
  | deliver ok => cases ok <;> exact h.late rfl
  | finish => exact h.late rfl

theorem Closing.empty {tb : TraceBuffer} (h : Closing tb .done) : balance tb.ledger = 0 := by
  have hparked : ∀ id l, tb.decided.held.lookup id = some l → l.length = 0 := by
    intro id l hl
    by_contra hne
    have hparked : tb.decided.parked id ≠ [] := by
      unfold DecidedTraces.parked
      rw [hl]
      exact fun he => hne (by rw [Option.getD_some] at he; rw [he]; rfl)
    obtain ⟨f, hf, hid⟩ := h.inv.covers.parked hparked
    rw [mem_singleton.mp hf] at hid
    exact absurd hid not_mem_nil
  have hheld : System.held ⟨tb, [.done]⟩ = 0 := by
    simp [System.held, TraceBuffer.spansHeld, h.traces, h.rescued, h.late rfl, Flight.spans,
      total_eq_zero hparked]
  rw [h.inv.conserved, hheld]
  rfl

/-- CORRECT: as long as no step takes a trace with parked spans out of the buffer, in every state the
    balance of the ledger is the number of spans held; and a closing flush with no other on its way
    leaves every accepted span counted in one of the four exits. -/
theorem spans_conserved (cfg : Config) (as : List Action) (s : System)
    (hc : Meets step ParkedStay ⟨newTraceBuffer cfg, []⟩ as)
    (h : run step ⟨newTraceBuffer cfg, []⟩ as = some s) :
    balance s.tb.ledger = s.held ∧
      ((∀ f ∈ s.flights, f = .done) → ∀ now lookup ok,
        exits (s.tb.flush now true lookup ok).1.ledger =
          columnTotal (s.tb.flush now true lookup ok).1.ledger .accepted) := by
  have hinv : Inv s := inv_run_meets inv_step (inv_new cfg) hc h
  refine ⟨hinv.conserved, fun hdone now lookup ok => ?_⟩
  have hidle : Inv ⟨s.tb, []⟩ := by
    refine ⟨hinv.kept, forall_mem_nil _, hinv.covers.mono ?_, ?_⟩
    · rintro id ⟨f, hf, hid⟩
      rw [hdone f hf] at hid
      exact absurd hid not_mem_nil
    · have hzero : (s.flights.map fun f => f.spans.length).sum = 0 := by
        refine sum_eq_zero fun n hn => ?_
        obtain ⟨f, hf, rfl⟩ := mem_map.mp hn
        rw [hdone f hf]
        rfl
      rw [hinv.conserved, System.held, hzero]
      rfl
  have hdue : DueUnparked s.tb now true := by
    intro tr _ _
    by_contra hp
    obtain ⟨f, hf, -⟩ := hidle.covers.parked hp
    exact absurd hf not_mem_nil
  have hclosing : Closing (s.tb.start now true).1 (s.tb.start now true).2 := by
    obtain ⟨ht, hr⟩ := start_all_empty now hidle.kept
    exact ⟨inv_start hidle hdue, ht, hr, fun hs => by cases hs⟩
  have hbal := (flush_induct (fun _ _ _ _ h hadv => closing_advances h hadv) lookup ok hclosing).empty
  unfold balance at hbal
  omega

/-! ### A parked span is thrown away -/

/-- A root span of a trace. -/
def span (traceID spanID : String) : SpanRecord := { projectID := 1, traceID, spanID, name := "op" }

/-- Every trace is sampled in. -/
def keepAll (now : ℤ) : Env := ⟨now, some fun _ _ => 1⟩

/-- One span of cap, one remembered decision, decided one tick after the root. -/
def tight : Config := { ttl := 100, maxSpans := 1, rootGrace := 1, maxDecided := 1 }

/-- Trace `a` is being decided and has a parked span when its pending decision is pushed out; a later
    span of it starts a new trace, and evicting that trace forgets the parked span. -/
def parkedSpanLost : List Action :=
  [.add (keepAll 0) (span "a" "1"), .start 10 false, .add (keepAll 11) (span "a" "2"),
    .add (keepAll 12) (span "b" "1"), .add (keepAll 13) (span "c" "1"),
    .add (keepAll 14) (span "a" "3"), .add (keepAll 15) (span "d" "1")]

theorem parked_span_uncounted :
    ∃ s, run step ⟨newTraceBuffer tight, []⟩ parkedSpanLost = some s ∧
      balance s.tb.ledger = 3 ∧ s.held = 2 :=
  ⟨_, rfl, by decide, by decide⟩

/-- A run that meets the condition: a span is parked during a flush and follows its decision, and the
    cap evicts a trace meanwhile. -/
def parkedSpanFollows : List Action :=
  [.add (keepAll 0) (span "a" "1"), .start 10 false, .add (keepAll 11) (span "a" "2"),
    .add (keepAll 12) (span "b" "1"), .advance 0 (some fun _ _ => 1) true,
    .add (keepAll 13) (span "c" "1"), .advance 0 none true, .advance 0 none true,
    .advance 0 none true, .advance 0 none false, .advance 0 none true]

theorem spans_conserved_parked :
    ∃ s, run step ⟨newTraceBuffer { tight with maxDecided := 2 }, []⟩ parkedSpanFollows = some s ∧
      s.tb.out.length = 1 ∧ s.tb.undelivered.length = 1 ∧ balance s.tb.ledger = s.held ∧
      ((∀ f ∈ s.flights, f = .done) → ∀ now lookup ok,
        exits (s.tb.flush now true lookup ok).1.ledger =
          columnTotal (s.tb.flush now true lookup ok).1.ledger .accepted) :=
  ⟨_, rfl, by decide, by decide,
    spans_conserved { tight with maxDecided := 2 } parkedSpanFollows _ (by decide) rfl⟩

end Spanbarn.Ingest
