import Spanbarn.Ingest.FlushFlow

/-! The error promise: what carries an error is stored, and so is the rest of its trace.

    Calls come one after the other: an `Add`, a whole flush, or a sweep of the floor.

        error span ──▶ its trace is latched ──▶ deliverAll
                  └──▶ late, and the decision on its trace keeps from now on

    An error span is never refused, evicted, shed or sampled out; the spans buffered with it leave with
    it; and while the decision on the trace is remembered, its later spans are kept. -/

namespace Spanbarn.Ingest
open List Spanbarn.Model Spanbarn.Schemes Spanbarn.Ledger Spanbarn.Sampling

/-! ### Calls -/

inductive Call where
  | add (env : Env) (rec : SpanRecord)
  | flush (now : ℤ) (all : Bool) (lookup : ℕ → Lookup) (ok : ℕ → Bool)
  | sweep (now : ℤ)

/-- The buffer after a call. -/
def call (tb : TraceBuffer) : Call → TraceBuffer
  | .add env rec => tb.add env rec
  | .flush now all lookup ok => (tb.flush now all lookup ok).1
  | .sweep now => { tb with floor := tb.floor.map fun f => f.gc now }

/-- The span a call adds. -/
def Call.added : Call → List SpanRecord
  | .add _ rec => [rec]
  | _ => []

/-- The buffer after some calls. -/
def calls (tb : TraceBuffer) (cs : List Call) : TraceBuffer := cs.foldl call tb

/-! ### What holds between calls -/

/-- Nothing is parked. -/
def NoParked (tb : TraceBuffer) : Prop := ∀ id, tb.decided.parked id = []

/-- Between calls the buffer is well kept, nothing is pending or parked, and no trace is both buffered
    and decided. -/
structure Whole (tb : TraceBuffer) : Prop where
  kept : Kept tb
  idle : Covers (fun _ => False) tb.decided
  apart : ∀ {id tr}, tb.traces.lookup id = some tr → tb.decided.m.lookup id = none

variable {tb : TraceBuffer} {id : String} {tr : BufferedTrace} {e : Decision}

theorem Whole.clash (h : Whole tb) (hl : tb.traces.lookup id = some tr) :
    tb.decided.m.lookup id ≠ some e := by
  simp [h.apart hl]

theorem Whole.unbuffered (h : Whole tb) (hm : tb.decided.m.lookup id = some e) :
    tb.traces.lookup id = none :=
  Option.eq_none_iff_forall_ne_some.mpr fun _ hl => h.clash hl hm

theorem whole_new (cfg : Config) : Whole (newTraceBuffer cfg) :=
  ⟨kept_new cfg, covers_new _ _, fun h => by simp [newTraceBuffer] at h⟩

theorem Whole.noParked (h : Whole tb) : NoParked tb := by
  intro id
  by_contra hp
  exact h.idle.parked hp

theorem Whole.addUnparked (h : Whole tb) (rec : SpanRecord) :
    AddUnparked tb rec := fun _ _ _ _ _ _ => h.noParked _

theorem Whole.dueUnparked (h : Whole tb) (now : ℤ) (all : Bool) :
    DueUnparked tb now all := fun _ _ _ => h.noParked _

/-! ### Making room -/

variable {tb' : TraceBuffer}

/-- An eviction decides a buffered trace and forgets others. -/
theorem Evicts.decided_of {now : ℤ} (h : Evicts tb now tr tb') (hne : id ≠ tr.id)
    (hm : tb'.decided.m.lookup id = some e) : tb.decided.m.lookup id = some e := by
  obtain ⟨w, hp⟩ := h.puts
  exact hp.m hne hm

/-- Making room keeps buffered and decided traces apart, decides no trace that was not buffered, and
    hands nothing over. -/
structure Roomed (tb tb' : TraceBuffer) : Prop where
  traces : ∀ {id}, tb.traces.lookup id = none → tb'.traces.lookup id = none
  apart : ∀ {id tr}, tb'.traces.lookup id = some tr → tb'.decided.m.lookup id = none
  decided : ∀ {id e}, tb.traces.lookup id = none → tb'.decided.m.lookup id = some e →
    tb.decided.m.lookup id = some e
  out : tb'.out = tb.out ∧ tb'.undelivered = tb.undelivered
  late : tb'.decided.late = tb.decided.late

theorem roomed_ensureRoom (env : Env) (keep : Option String) (h : Whole tb) :
    Roomed tb (tb.ensureRoom env keep).2 := by
  refine (ensureRoom_induct (P := fun t => Kept t ∧ Roomed tb t) ?_ ?_
    ⟨h.kept, fun hn => hn, h.apart, fun _ hm => hm, ⟨rfl, rfl⟩, rfl⟩).2
  · rintro t q q' ⟨⟨h1, h2, h3, h4, h5⟩, ⟨a, b, c, d, e⟩⟩
    exact ⟨⟨h1, h2, h3, h4, h5⟩, ⟨a, b, c, d, e⟩⟩
  · rintro t tr t' ⟨hk, hr⟩ hv he
    obtain ⟨k, hbuf⟩ := hv.buffered
    obtain ⟨w, hp⟩ := he.puts
    have hsub : ∀ {id x}, t'.traces.lookup id = some x →
        id ≠ tr.id ∧ t.traces.lookup id = some x := fun hx => by
      rw [he.traces_eq] at hx
      exact lookup_of_erase hx
    refine ⟨he.kept hv hk, fun {id} hid => ?_, fun {id x} hx => ?_, fun {id e} hid hm => ?_, ?_,
      hp.late.trans hr.late⟩
    · exact Option.eq_none_iff_forall_ne_some.mpr fun x hx => by
        simpa [hr.traces hid] using (hsub hx).2
    · obtain ⟨hne, hx⟩ := hsub hx
      refine Option.eq_none_iff_forall_ne_some.mpr fun e hm => ?_
      simpa [hr.apart hx] using he.decided_of hne hm
    · have hne : id ≠ tr.id := by
        rintro rfl
        simpa [hk.lookup_id hbuf] using hr.traces hid
      exact hr.decided hid (he.decided_of hne hm)
    · cases he with
      | rescued _ _ _ _ _ _ _ ho | dropped _ _ _ _ _ _ _ ho =>
        exact ⟨ho.1.trans hr.out.1, ho.2.trans hr.out.2⟩

/-! ### Where `Add` puts a span -/

/-- What `Add` does with the traces: one trace of the span's id is there with the span at its end, and
    traces with an error stay; or the traces of others may shrink. -/
inductive Adds (tb : TraceBuffer) (rec : SpanRecord) (tb' : TraceBuffer) : Prop
  | buffered (tr tr' : BufferedTrace) (mid : TraceBuffer)
      (was : tb.traces.lookup rec.traceID = some tr ∨
        tb.traces.lookup rec.traceID = none ∧ tb.decided.m.lookup rec.traceID = none ∧
          tr.spans = [] ∧ tr.hasError = false)
      (room : Roomed tb mid) (undecided : mid.decided.m.lookup rec.traceID = none)
      (stays : ∀ {id x}, tb.traces.lookup id = some x → x.hasError = true →
        mid.traces.lookup id = some x)
      (traces : ∀ id, tb'.traces.lookup id =
        if id = rec.traceID then some tr' else mid.traces.lookup id)
      (spans : tr'.spans = tr.spans ++ [rec])
      (hasError : tr'.hasError = (tr.hasError || rec.isError))
      (decided : tb'.decided = mid.decided)
      (out : tb'.out = mid.out ∧ tb'.undelivered = mid.undelivered)
  | refused (mid : TraceBuffer) (clean : rec.isError = false)
      (was : ∀ tr, tb.traces.lookup rec.traceID = some tr → tr.hasError = false)
      (undecided : tb.decided.m.lookup rec.traceID = none)
      (room : Roomed tb mid)
      (stays : ∀ {id x}, tb.traces.lookup id = some x → x.hasError = true →
        mid.traces.lookup id = some x)
      (traces : tb'.traces = mid.traces) (decided : tb'.decided = mid.decided)
      (out : tb'.out = mid.out ∧ tb'.undelivered = mid.undelivered)
  | followed (e : Decision) (r : DecidedTraces × Tally) (ledger : Tally)
      (was : tb.traces.lookup rec.traceID = none)
      (decision : tb.decided.m.lookup rec.traceID = some e)
      (follows : Follows tb.decided ledger rec e r)
      (traces : tb'.traces = tb.traces) (decided : tb'.decided = r.1)
      (out : tb'.out = tb.out ∧ tb'.undelivered = tb.undelivered)

variable {rec : SpanRecord}

theorem adds_admitSpan (env : Env) {tr : Option BufferedTrace} (h : Whole tb)
    (htr : tb.traces.lookup rec.traceID = tr)
    (hd : tr = none → tb.decided.m.lookup rec.traceID = none) :
    Adds tb rec (tb.admitSpan env rec tr) := by
  have hroom := roomed_ensureRoom env (tr.map BufferedTrace.id) h
  have hstays : ∀ {id x}, tb.traces.lookup id = some x → x.hasError = true →
      (tb.ensureRoom env (tr.map BufferedTrace.id)).2.traces.lookup id = some x :=
    fun hx he => ensureRoom_stays env h.kept hx (.inl he)
  unfold TraceBuffer.admitSpan
  simp only
  split
  · next hc =>
    simp only [Bool.and_eq_true, Bool.not_eq_true', Bool.or_eq_false_iff] at hc
    refine .refused _ hc.2.1 (fun x hx => ?_) ?_ hroom hstays rfl rfl ⟨rfl, rfl⟩
    · rw [htr] at hx
      have := hc.2.2
      rw [hx] at this
      simpa using this
    · cases tr with
      | some tr => exact h.apart htr
      | none => exact hd rfl
  · cases tr with
    | some tr =>
      obtain ⟨tr', ht, -, hspans, herr⟩ := lookup_append
        (tb.ensureRoom env (Option.map BufferedTrace.id (some tr))).2 env tr rec
      have hown : (tb.ensureRoom env (some tr.id)).2.traces.lookup rec.traceID = some tr :=
        ensureRoom_stays env h.kept htr (.inr (by rw [h.kept.keys htr]))
      refine .buffered tr tr' _ (.inl htr) hroom (hroom.apart hown) hstays (fun id => ?_) hspans herr
        rfl ⟨rfl, rfl⟩
      rw [ht, h.kept.keys htr]
      split
      · next hid => rw [hid, AList.lookup_insert]
      · next hid => rw [AList.lookup_insert_ne hid]
    | none =>
      obtain ⟨tr', ht, -, hspans, herr⟩ := lookup_append
        ((tb.ensureRoom env (Option.map BufferedTrace.id none)).2.newTrace env rec).2 env
        ((tb.ensureRoom env (Option.map BufferedTrace.id none)).2.newTrace env rec).1 rec
      have hown : (tb.ensureRoom env none).2.decided.m.lookup rec.traceID = none := by
        cases hm : (tb.ensureRoom env none).2.decided.m.lookup rec.traceID with
        | none => rfl
        | some e => exact (hroom.decided htr hm).symm.trans (hd rfl)
      refine .buffered _ tr' _ (.inr ⟨htr, hd rfl, rfl, rfl⟩) hroom hown hstays (fun id => ?_) hspans
        herr rfl ⟨rfl, rfl⟩
      rw [ht]
      split
      · next hid => rw [hid]; exact AList.lookup_insert _
      · next hid =>
        exact (AList.lookup_insert_ne hid).trans (AList.lookup_insert_ne hid)

theorem adds_add (env : Env) (rec : SpanRecord) (h : Whole tb) :
    Adds tb rec (tb.add env rec) := by
  have hw : Whole (tb.accept rec) :=
    ⟨⟨h.kept.keys, h.kept.latched, h.kept.rescued, h.kept.carried, h.kept.parked⟩, h.idle, h.apart⟩
  have hsame : Adds (tb.accept rec) rec (tb.add env rec) → Adds tb rec (tb.add env rec) := by
    intro ha
    cases ha with
    | buffered tr tr' mid was room own stays ht hs he hd ho =>
      exact .buffered tr tr' mid was ⟨room.traces, room.apart, room.decided, room.out, room.late⟩
        own stays ht hs he hd ho
    | refused mid clean was und room stays ht hd ho =>
      exact .refused mid clean was und ⟨room.traces, room.apart, room.decided, room.out, room.late⟩
        stays ht hd ho
    | followed e r ledger was dec fol ht hd ho => exact .followed e r ledger was dec fol ht hd ho
  refine hsame ?_
  unfold TraceBuffer.add TraceBuffer.route
  cases htr : (tb.accept rec).traces.lookup rec.traceID with
  | some tr => exact adds_admitSpan env hw htr nofun
  | none =>
    cases hf : (tb.accept rec).decided.follow (tb.accept rec).ledger rec with
    | some r =>
      obtain ⟨e, hm, hfol⟩ := follows_follow hf
      exact .followed e r _ htr hm hfol rfl rfl ⟨rfl, rfl⟩
    | none => exact adds_admitSpan env hw htr fun _ => follow_eq_none.mp hf

/-- A latched trace stays latched, with its spans at the beginning. -/
theorem Adds.latched (h : Adds tb rec tb') (hl : tb.traces.lookup id = some tr)
    (he : tr.hasError = true) :
    ∃ tr', tb'.traces.lookup id = some tr' ∧ tr'.hasError = true ∧ tr.spans <+: tr'.spans := by
  cases h with
  | buffered x x' mid was room _ stays ht hspans herr =>
    rw [ht]
    by_cases hid : id = rec.traceID
    · subst hid
      rcases was with was | ⟨hnone, -⟩
      · obtain rfl := Option.some.inj (was.symm.trans hl)
        exact ⟨x', if_pos rfl, by rw [herr, he]; rfl, hspans ▸ prefix_append _ _⟩
      · rw [hnone] at hl; cases hl
    · exact ⟨tr, by rw [if_neg hid]; exact stays hl he, he, prefix_rfl⟩
  | refused mid _ _ _ _ stays ht => exact ⟨tr, by rw [ht]; exact stays hl he, he, prefix_rfl⟩
  | followed _ _ _ _ _ _ ht => exact ⟨tr, by rw [ht]; exact hl, he, prefix_rfl⟩

/-- A followed decision: only the one on the span's trace may change, and it is kept from then on if it
    was kept or the span carries an error. -/
theorem Follows.decision_of {d : DecidedTraces} {ledger : Tally} {r : DecidedTraces × Tally}
    (h : Follows d ledger rec e r) {x : Decision} (hx : r.1.m.lookup id = some x) :
    d.m.lookup id = some x ∨ id = rec.traceID ∧ 1 ≤ x.weight ∧ x.pending = e.pending := by
  cases h with
  | parks | drops => exact .inl hx
  | keeps hp hw _ hmm =>
    rcases hmm with ⟨rfl, -⟩ | rfl
    · exact .inl hx
    · rcases lookup_of_insert hx with ⟨rfl, rfl⟩ | ⟨-, hx⟩
      · exact .inr ⟨rfl, hw, rfl⟩
      · exact .inl hx

theorem whole_add (env : Env) (rec : SpanRecord) (h : Whole tb) :
    Whole (tb.add env rec) := by
  refine ⟨(add_flow env h.kept (h.addUnparked rec)).1, covers_add env rec h.idle,
    fun {id tr} hid => ?_⟩
  cases adds_add env rec h with
  | buffered x x' mid was room own _ ht _ _ hd =>
    rw [hd]
    rw [ht] at hid
    split at hid
    · next he => rw [he]; exact own
    · exact room.apart hid
  | refused mid _ _ _ room _ ht hd => rw [hd]; rw [ht] at hid; exact room.apart hid
  | followed e r ledger was dec fol ht hd =>
    rw [ht] at hid
    rw [hd]
    cases hx : r.1.m.lookup id with
    | none => rfl
    | some x =>
      rcases fol.decision_of hx with hx | ⟨rfl, -⟩
      · exact absurd hx (h.clash hid)
      · rw [was] at hid; cases hid

/-! ### A whole flush -/

/-- The traces a flush has not decided. -/
def Flight.todo : Flight → List BufferedTrace
  | .deciding _ _ todo _ _ => todo
  | _ => []

/-- The decisions a flush has made and not recorded. -/
def Flight.weights : Flight → List (String × ℕ)
  | .deciding _ _ _ weights _ => weights
  | .settling _ weights _ => weights
  | _ => []

theorem unsettled_eq (f : Flight) :
    f.unsettled = f.todo.map BufferedTrace.id ++ f.weights.map Prod.fst := by
  cases f <;> rfl

/-- What the first half does to the decisions: those of the traces it takes out are pending, of the
    others some may be forgotten, and nothing gets parked. -/
theorem start_decided (now : ℤ) (all : Bool) (hp : NoParked tb) :
    NoParked (tb.start now all).1 ∧
      ∀ {id e}, (tb.start now all).1.decided.m.lookup id = some e →
        id ∈ (tb.toDecide now all).map BufferedTrace.id ∨ tb.decided.m.lookup id = some e := by
  have hall : ∀ (trs : List BufferedTrace) (t : TraceBuffer), NoParked t →
      NoParked (trs.foldl (TraceBuffer.takeOut now) t) ∧
        ∀ id e, (trs.foldl (TraceBuffer.takeOut now) t).decided.m.lookup id = some e →
          id ∈ trs.map BufferedTrace.id ∨ t.decided.m.lookup id = some e := by
    intro trs
    induction trs with
    | nil => exact fun t hp => ⟨hp, fun _ _ hm => .inr hm⟩
    | cons tr trs ih =>
      intro t hp
      have hputs := takeOut_puts t now tr
      obtain ⟨h1, h2⟩ := ih (t.takeOut now tr) fun id => by
        rw [hputs.parked]; split <;> [rfl; exact hp id]
      refine ⟨h1, fun id e hm => ?_⟩
      rcases h2 id e hm with hid | hm
      · exact .inl (mem_cons_of_mem _ hid)
      · by_cases hid : id = tr.id
        · exact .inl (by rw [hid]; exact mem_cons_self)
        · exact .inr (hputs.m hid hm)
  obtain ⟨h1, h2⟩ := hall (tb.toDecide now all) tb hp
  have hforget := forgets_expire ((tb.toDecide now all).foldl (TraceBuffer.takeOut now) tb).decided now
  exact ⟨fun id => (hforget.parked id).trans (h1 id), fun {id e} hm => h2 id e (hforget.m hm)⟩

/-- The traces the first half leaves are those that were not due. -/
theorem start_traces {now : ℤ} {all : Bool} (hk : Kept tb) (hu : DueUnparked tb now all) :
    (tb.start now all).1.traces.lookup id = some tr ↔
      tb.traces.lookup id = some tr ∧ tr ∉ tb.toDecide now all := by
  have hall : ∀ (trs : List BufferedTrace) (t : TraceBuffer), Kept t → Takes t trs →
      ∀ tr, (trs.foldl (TraceBuffer.takeOut now) t).traces.lookup id = some tr ↔
        t.traces.lookup id = some tr ∧ tr ∉ trs := by
    intro trs
    induction trs with
    | nil => intro t _ _ tr; simp
    | cons x trs ih =>
      intro t hk ht tr
      rw [foldl_cons, ih _ (kept_takeOut hk now x) ht.tail tr]
      have herase : (t.takeOut now x).traces = t.traces.erase x.id := rfl
      rw [herase, mem_cons, not_or]
      constructor
      · rintro ⟨hl, hn⟩
        obtain ⟨hne, hl⟩ := lookup_of_erase hl
        exact ⟨hl, fun he => hne (by rw [← he, hk.keys hl]), hn⟩
      · rintro ⟨hl, hne, hn⟩
        refine ⟨?_, hn⟩
        have hid : id ≠ x.id := by
          rintro rfl
          exact hne (Option.some.inj (hl.symm.trans (ht.buffered x mem_cons_self)))
        rw [AList.lookup_erase_ne hid]
        exact hl
  exact hall _ tb hk (takes_toDecide hk hu) tr

theorem settleOne_of_noParked (now : ℤ) (w : String × ℕ) (hp : NoParked tb) :
    tb.settleOne now w = { tb with decided := (tb.decided.put w.1 w.2 false now).2 } := by
  rw [TraceBuffer.settleOne]
  simp only [put_fst, hp w.1]
  rfl

theorem followAll_out : ∀ (recs : List SpanRecord) (tb : TraceBuffer),
    (tb.followAll recs).out = tb.out ∧ (tb.followAll recs).undelivered = tb.undelivered
  | [], tb => ⟨rfl, rfl⟩
  | r :: recs, tb => by
    rw [TraceBuffer.followAll]
    cases tb.decided.follow tb.ledger r with
    | none => exact followAll_out recs tb
    | some q => exact followAll_out recs (tb.followed q)

theorem settle_out (tb : TraceBuffer) (ws : List (String × ℕ)) (now : ℤ) :
    (tb.settle ws now).1.out = tb.out ∧ (tb.settle ws now).1.undelivered = tb.undelivered := by
  refine List.foldlRecOn (motive := fun t : TraceBuffer => t.out = tb.out ∧
    t.undelivered = tb.undelivered) ws (TraceBuffer.settleOne now) ⟨rfl, rfl⟩ fun t ht w _ => ?_
  obtain ⟨h1, h2⟩ := followAll_out (t.decided.put w.1 w.2 false now).1
    { t with decided := (t.decided.put w.1 w.2 false now).2 }
  exact ⟨h1.trans ht.1, h2.trans ht.2⟩

/-- What settling does to the decisions when nothing is parked: those of the flush are recorded with
    their weights, of the others some may be forgotten. -/
theorem settle_decided (ws : List (String × ℕ)) (now : ℤ) (hp : NoParked tb) :
    NoParked (tb.settle ws now).1 ∧
      ∀ {id e}, (tb.settle ws now).1.decided.m.lookup id = some e →
        ((id, e.weight) ∈ ws ∧ e.pending = false) ∨
          id ∉ ws.map Prod.fst ∧ tb.decided.m.lookup id = some e := by
  have hall : ∀ (ws : List (String × ℕ)) (t : TraceBuffer), NoParked t →
      NoParked (ws.foldl (TraceBuffer.settleOne now) t) ∧
        ∀ id e, (ws.foldl (TraceBuffer.settleOne now) t).decided.m.lookup id = some e →
          ((id, e.weight) ∈ ws ∧ e.pending = false) ∨
            id ∉ ws.map Prod.fst ∧ t.decided.m.lookup id = some e := by
    intro ws
    induction ws with
    | nil => exact fun t hp => ⟨hp, fun _ _ hm => .inr ⟨not_mem_nil, hm⟩⟩
    | cons w ws ih =>
      intro t hp
      have hputs := puts_put t.decided w.1 w.2 false now
      rw [foldl_cons, settleOne_of_noParked now w hp]
      obtain ⟨h1, h2⟩ := ih { t with decided := (t.decided.put w.1 w.2 false now).2 } fun id => by
        rw [hputs.parked]; split <;> [rfl; exact hp id]
      refine ⟨h1, fun id e hm => ?_⟩
      rcases h2 id e hm with ⟨hw, hpe⟩ | ⟨hn, hm⟩
      · exact .inl ⟨mem_cons_of_mem _ hw, hpe⟩
      · by_cases hid : id = w.1
        · subst hid
          obtain ⟨seq, hself⟩ := hputs.self
          obtain rfl := Option.some.inj (hself.symm.trans hm)
          exact .inl ⟨mem_cons_self, rfl⟩
        · refine .inr ⟨?_, hputs.m hid hm⟩
          rw [map_cons, mem_cons, not_or]
          exact ⟨hid, hn⟩
  obtain ⟨h1, h2⟩ := hall ws tb hp
  exact ⟨h1, fun {id e} hm => h2 id e hm⟩

variable {f f' : Flight}

/-- What a piece of a flush does to the decisions when nothing is parked. -/
theorem Advances.decided (h : Advances tb f tb' f') (hp : NoParked tb) :
    NoParked tb' ∧ ∀ {id e}, tb'.decided.m.lookup id = some e →
      ((id, e.weight) ∈ f.weights ∧ e.pending = false) ∨
        (id ∈ f.unsettled → id ∈ f'.unsettled) ∧ tb.decided.m.lookup id = some e := by
  cases h with
  | @decide now all tr todo weights kept lookup =>
    have hsame : (tb.decideTrace lookup tr now).1.decided = tb.decided := by
      obtain ⟨_, _, _, hsame⟩ := decideTrace_frame tb lookup tr now
      rw [hsame]
    refine ⟨fun id => by rw [hsame]; exact hp id, fun {id e} hm => .inr ⟨fun hid => ?_, ?_⟩⟩
    · simp only [Flight.unsettled, map_cons, map_append, map_nil, cons_append,
        mem_cons, mem_append, not_mem_nil, or_false] at hid ⊢
      tauto
    · rw [hsame] at hm
      exact hm
  | carriers | finish => exact ⟨hp, fun hm => .inr ⟨fun hid => hid, hm⟩⟩
  | @settle now weights kept =>
    obtain ⟨h1, h2⟩ := settle_decided weights now hp
    refine ⟨h1, fun {id e} hm => ?_⟩
    rcases h2 hm with hw | ⟨hn, hm⟩
    · exact .inl hw
    · exact .inr ⟨fun hid => absurd hid hn, hm⟩
  | @deliver spans rest lost ok =>
    cases ok <;> exact ⟨hp, fun hm => .inr ⟨fun hid => hid, hm⟩⟩

/-- What holds between the pieces of a flush that no `Add` interrupts. -/
structure Mid (tb : TraceBuffer) (f : Flight) : Prop where
  kept : Kept tb
  latched : f.Latched
  noParked : NoParked tb
  covers : Covers (fun id => id ∈ f.unsettled) tb.decided
  apart : ∀ {id tr}, tb.traces.lookup id = some tr →
    id ∉ f.unsettled ∧ tb.decided.m.lookup id = none

theorem mid_start (now : ℤ) (all : Bool) (h : Whole tb) :
    Mid (tb.start now all).1 (tb.start now all).2 := by
  obtain ⟨hp, hm⟩ := start_decided now all h.noParked
  refine ⟨(start_flow h.kept (h.dueUnparked now all)).1, start_latched h.kept, hp,
    (covers_start h.idle).mono fun id hid => hid.resolve_left not_false, fun {id tr} htr => ?_⟩
  obtain ⟨hl, hn⟩ := (start_traces h.kept (h.dueUnparked now all)).mp htr
  -- a trace that stays is not one of those taken out, by its id
  have hid : id ∉ (tb.toDecide now all).map BufferedTrace.id := by
    intro hid
    obtain ⟨x, hx, hxid⟩ := mem_map.mp hid
    obtain ⟨k, hk⟩ := mem_values.mp (mem_toDecide.mp hx).1
    have hxl := h.kept.lookup_id hk
    rw [hxid] at hxl
    exact hn (Option.some.inj (hxl.symm.trans hl) ▸ hx)
  refine ⟨by simpa [TraceBuffer.start, TraceBuffer.takeDue, Flight.unsettled] using hid, ?_⟩
  cases he : (tb.start now all).1.decided.m.lookup id with
  | none => rfl
  | some e =>
    rcases hm he with hid' | hm
    · exact absurd hid' hid
    · rw [h.apart hl] at hm; cases hm

theorem mid_advances (h : Mid tb f) (hadv : Advances tb f tb' f') : Mid tb' f' := by
  obtain ⟨hk, hl, -⟩ := hadv.flow h.kept h.latched
  obtain ⟨hp, hm⟩ := hadv.decided h.noParked
  have hc : Covers (fun id => False ∨ id ∈ f.unsettled) tb.decided := h.covers.mono fun _ => .inr
  refine ⟨hk, hl, hp, (hadv.covers h.kept hc).mono fun id hid => hid.resolve_left not_false,
    fun {id tr} htr => ?_⟩
  rw [(hadv.traces h.kept).1] at htr
  obtain ⟨hid, hnone⟩ := h.apart htr
  have hsub : ∀ {x}, x ∈ f'.unsettled → x ∈ f.unsettled := by
    intro x hx
    cases hadv with
    | decide lookup =>
      simp only [Flight.unsettled, map_cons, map_append, map_nil, cons_append,
        mem_cons, mem_append, not_mem_nil, or_false] at hx ⊢
      tauto
    | carriers => exact hx
    | settle => exact absurd hx not_mem_nil
    | deliver => exact hx
    | finish => exact hx
  refine ⟨fun hx => hid (hsub hx), ?_⟩
  cases he : tb'.decided.m.lookup id with
  | none => rfl
  | some e =>
    rcases hm he with ⟨hw, -⟩ | ⟨-, hm⟩
    · refine absurd ?_ hid
      rw [unsettled_eq]
      exact mem_append_right _ (mem_map.mpr ⟨_, hw, rfl⟩)
    · rw [hnone] at hm; cases hm

theorem Mid.whole (h : Mid tb .done) : Whole tb :=
  ⟨h.kept, h.covers.mono fun _ hid => absurd hid not_mem_nil, fun htr => (h.apart htr).2⟩

theorem whole_call (c : Call) (h : Whole tb) : Whole (call tb c) := by
  cases c with
  | add env rec => exact whole_add env rec h
  | flush now all lookup ok =>
    exact (flush_induct (fun _ _ _ _ h hadv => mid_advances h hadv) lookup ok
      (mid_start now all h)).whole
  | sweep now =>
    exact ⟨⟨h.kept.keys, h.kept.latched, h.kept.rescued, h.kept.carried, h.kept.parked⟩, h.idle,
      h.apart⟩

theorem whole_calls (cs : List Call) (h : Whole tb) : Whole (calls tb cs) := by
  induction cs generalizing tb with
  | nil => exact h
  | cons c cs ih => exact ih (whole_call c h)

/-! ### Error spans are accounted for -/

/-- The error spans of a bag. -/
def errors (m : Multiset SpanRecord) : Multiset SpanRecord := m.filter fun r => r.isError = true

theorem errors_clean {l : List SpanRecord} (h : Clean l) : errors (bag l) = 0 := by
  refine Multiset.filter_eq_nil.mpr fun r hr => ?_
  obtain ⟨x, hx, rfl⟩ := mem_map.mp (Multiset.mem_coe.mp hr)
  have hc : (x.weighted 0).isError = false := h x hx
  simp [hc]

/-- Error spans in buffered traces and among the late spans. -/
def TraceBuffer.errorsHeld (tb : TraceBuffer) : Multiset SpanRecord :=
  errors (total (fun tr => bag tr.spans) tb.traces + bag tb.decided.late)

/-- Error spans handed to the drain. -/
def TraceBuffer.errorsHanded (tb : TraceBuffer) : Multiset SpanRecord :=
  errors (bag (tb.out ++ tb.undelivered).flatten)

/-- A flow of clean spans moves no error span. -/
theorem Flow.errors {s s' : Stock} {e x l : List SpanRecord} (h : Flow s s' (e ++ x) l [])
    (hx : Clean x) (hl : Clean l) :
    Ingest.errors (s'.holds + s'.handed) = Ingest.errors (s.holds + s.handed) +
      Ingest.errors (bag e) := by
  have hs := congrArg Ingest.errors h.spans
  simp only [Ingest.errors, bag_append, bag_nil, add_zero, Multiset.filter_add] at hs ⊢
  have h1 := errors_clean hx
  have h2 := errors_clean hl
  unfold Ingest.errors at h1 h2
  rw [h1, h2, add_zero, add_zero] at hs
  exact hs

theorem flush_flow (now : ℤ) (all : Bool) (lookup : ℕ → Lookup) (ok : ℕ → Bool) (h : Whole tb) :
    ∃ enter left, Clean enter ∧ Clean left ∧
      Flow tb.stock (tb.flush now all lookup ok).1.stock enter left [] := by
  have hmain := flush_induct
    (I := fun t f => Kept t ∧ f.Latched ∧ ∃ enter left, Clean enter ∧ Clean left ∧
      Flow tb.stock (t.stock.plus f.spans) enter left []) ?_ lookup ok
    ⟨(start_flow h.kept (h.dueUnparked now all)).1, start_latched h.kept, [], [], clean_nil,
      clean_nil, (start_flow h.kept (h.dueUnparked now all)).2⟩
  · obtain ⟨-, -, enter, left, he, hl, hf⟩ := hmain
    exact ⟨enter, left, he, hl, by simpa [Flight.spans] using hf⟩
  · rintro t f t' f' ⟨hk, hlat, enter, left, he, hl, hf⟩ hadv
    obtain ⟨hk', hlat', enter', left', he', hl', hf'⟩ := hadv.flow hk hlat
    exact ⟨hk', hlat', _, _, he.append he', hl.append hl', by simpa using hf.trans hf'⟩

theorem Whole.errors_stock (h : Whole tb) :
    errors (tb.stock.holds + tb.stock.handed) = tb.errorsHeld + tb.errorsHanded := by
  have hheld : total bag tb.decided.held = 0 := by
    refine total_eq_zero fun id l hl => ?_
    have hp := h.noParked id
    unfold DecidedTraces.parked at hp
    rw [hl, Option.getD_some] at hp
    rw [hp]
    rfl
  have hres : errors (bag (spansOf tb.rescuedAtCap)) = 0 := errors_clean fun r hr => by
    obtain ⟨tr, htr, hr⟩ := mem_flatMap.mp hr
    exact h.kept.rescued tr htr r hr
  unfold errors at hres
  simp [TraceBuffer.stock, TraceBuffer.bags, TraceBuffer.errorsHeld, TraceBuffer.errorsHanded,
    errors, hheld, hres]

/-- Every call keeps the account of error spans: what it adds is held or handed over. -/
theorem errors_call (c : Call) (h : Whole tb) :
    (call tb c).errorsHeld + (call tb c).errorsHanded =
      tb.errorsHeld + tb.errorsHanded + errors (bag c.added) := by
  rw [← h.errors_stock, ← (whole_call c h).errors_stock]
  cases c with
  | add env rec =>
    obtain ⟨-, left, hleft, hf⟩ := add_flow env h.kept (h.addUnparked rec)
    exact Flow.errors (x := []) (by simpa [call, Call.added] using hf) clean_nil hleft
  | flush now all lookup ok =>
    obtain ⟨enter, left, henter, hleft, hf⟩ := flush_flow now all lookup ok h
    exact Flow.errors (e := []) (by simpa [call] using hf) henter hleft
  | sweep now => simp [Call.added, errors]; rfl

theorem errors_calls (cs : List Call) (h : Whole tb) :
    (calls tb cs).errorsHeld + (calls tb cs).errorsHanded =
      tb.errorsHeld + tb.errorsHanded + errors (bag (cs.flatMap Call.added)) := by
  induction cs generalizing tb with
  | nil => simp [calls, errors]
  | cons c cs ih =>
    have hrest := ih (whole_call c h)
    rw [errors_call c h] at hrest
    rw [flatMap_cons, bag_append]
    refine hrest.trans ?_
    simp only [errors, Multiset.filter_add]
    ac_rfl

/-! ### The spans of a latched trace leave together -/

/-- A list of spans without their weights. -/
def bare (l : List SpanRecord) : List SpanRecord := l.map (·.weighted 0)

theorem bare_weighted (l : List SpanRecord) (w : ℤ) : bare (l.map (·.weighted w)) = bare l := by
  simp [bare, Function.comp_def, SpanRecord.weighted]

/-- The spans are still in a latched trace of this id, or a batch that begins with them was handed to
    the drain since `tb₀`. -/
def Leaves (tb₀ : TraceBuffer) (id : String) (spans : List SpanRecord) (tb : TraceBuffer) : Prop :=
  ∃ o u, tb.out = tb₀.out ++ o ∧ tb.undelivered = tb₀.undelivered ++ u ∧
    ((∃ tr, tb.traces.lookup id = some tr ∧ tr.hasError = true ∧ spans <+: tr.spans) ∨
      ∃ batch ∈ o ++ u, bare spans <+: bare batch)

theorem leaves_refl (hl : tb.traces.lookup id = some tr) (he : tr.hasError = true) :
    Leaves tb id tr.spans tb :=
  ⟨[], [], by simp, by simp, .inl ⟨tr, hl, he, prefix_rfl⟩⟩

section leaves
variable {tb₀ tb : TraceBuffer} {id : String} {spans : List SpanRecord}

theorem leaves_add (env : Env) (rec : SpanRecord) (hw : Whole tb) (h : Leaves tb₀ id spans tb) :
    Leaves tb₀ id spans (tb.add env rec) := by
  obtain ⟨o, u, ho, hu, hcase⟩ := h
  have hadds := adds_add env rec hw
  have hout : (tb.add env rec).out = tb.out ∧ (tb.add env rec).undelivered = tb.undelivered := by
    cases hadds with
    | buffered _ _ _ _ room _ _ _ _ _ _ out =>
      exact ⟨out.1.trans room.out.1, out.2.trans room.out.2⟩
    | refused _ _ _ _ room _ _ _ out => exact ⟨out.1.trans room.out.1, out.2.trans room.out.2⟩
    | followed _ _ _ _ _ _ _ _ out => exact out
  refine ⟨o, u, hout.1.trans ho, hout.2.trans hu, hcase.imp_left ?_⟩
  rintro ⟨tr, hl, he, hpre⟩
  obtain ⟨tr', hl', he', hpre'⟩ := hadds.latched hl he
  exact ⟨tr', hl', he', hpre.trans hpre'⟩

/-- The batches a flush is going to hand over. -/
def Flight.outgoing : Flight → List (List SpanRecord)
  | .deciding _ _ _ _ kept => kept.map BufferedTrace.spans
  | .settling _ _ kept => kept.map BufferedTrace.spans
  | .delivering batches _ => batches
  | .done => []

/-- `Leaves` in the middle of a flush: the spans may also be in the hands of the flush. -/
def MidLeaves (tb₀ : TraceBuffer) (id : String) (spans : List SpanRecord) (tb : TraceBuffer)
    (f : Flight) : Prop :=
  ∃ o u, tb.out = tb₀.out ++ o ∧ tb.undelivered = tb₀.undelivered ++ u ∧
    ((∃ tr, tb.traces.lookup id = some tr ∧ tr.hasError = true ∧ spans <+: tr.spans) ∨
      (∃ tr ∈ f.todo, tr.hasError = true ∧ spans <+: tr.spans) ∨
      (∃ batch ∈ f.outgoing, bare spans <+: bare batch) ∨
      ∃ batch ∈ o ++ u, bare spans <+: bare batch)

theorem start_out (tb : TraceBuffer) (now : ℤ) (all : Bool) :
    (tb.start now all).1.out = tb.out ∧ (tb.start now all).1.undelivered = tb.undelivered := by
  exact List.foldlRecOn (motive := fun t : TraceBuffer => t.out = tb.out ∧
    t.undelivered = tb.undelivered) (tb.toDecide now all) (TraceBuffer.takeOut now) ⟨rfl, rfl⟩
    fun _ ht _ _ => ht

theorem midLeaves_start (now : ℤ) (all : Bool) (hw : Whole tb) (h : Leaves tb₀ id spans tb) :
    MidLeaves tb₀ id spans (tb.start now all).1 (tb.start now all).2 := by
  obtain ⟨o, u, ho, hu, hcase⟩ := h
  obtain ⟨h1, h2⟩ := start_out tb now all
  refine ⟨o, u, h1.trans ho, h2.trans hu, ?_⟩
  rcases hcase with ⟨tr, hl, he, hpre⟩ | hb
  · by_cases hdue : tr ∈ tb.toDecide now all
    · exact .inr (.inl ⟨tr, hdue, he, hpre⟩)
    · refine .inl ⟨tr, ?_, he, hpre⟩
      exact (start_traces hw.kept (hw.dueUnparked now all)).mpr ⟨hl, hdue⟩
  · exact .inr (.inr (.inr hb))

/-- A piece leaves buffered traces alone; what it takes from the traces to decide or from the batches
    to send has to turn up later on the way. -/
theorem MidLeaves.follow {o u : List (List SpanRecord)} (h : MidLeaves tb₀ id spans tb f)
    (htr : tb'.traces = tb.traces) (ho : tb'.out = tb.out ++ o)
    (hu : tb'.undelivered = tb.undelivered ++ u) (htodo : ∀ tr ∈ f.todo, tr.hasError = true →
      tr ∈ f'.todo ∨ ∃ batch ∈ f'.outgoing, bare batch = bare tr.spans)
    (hout : ∀ batch ∈ f.outgoing, batch ∈ f'.outgoing ∨ batch ∈ o ++ u) :
    MidLeaves tb₀ id spans tb' f' := by
  obtain ⟨o₀, u₀, ho₀, hu₀, hcase⟩ := h
  refine ⟨o₀ ++ o, u₀ ++ u, by rw [ho, ho₀, append_assoc], by rw [hu, hu₀, append_assoc], ?_⟩
  rcases hcase with ⟨tr, hl, he, hpre⟩ | ⟨tr, htr, he, hpre⟩ | ⟨b, hb, hpre⟩ | ⟨b, hb, hpre⟩
  · exact .inl ⟨tr, by rw [htr]; exact hl, he, hpre⟩
  · rcases htodo tr htr he with htr | ⟨b, hb, hbare⟩
    · exact .inr (.inl ⟨tr, htr, he, hpre⟩)
    · exact .inr (.inr (.inl ⟨b, hb, hbare ▸ hpre.map _⟩))
  · rcases hout b hb with hb | hb
    · exact .inr (.inr (.inl ⟨b, hb, hpre⟩))
    · refine .inr (.inr (.inr ⟨b, ?_, hpre⟩))
      simp only [mem_append] at hb ⊢
      tauto
  · refine .inr (.inr (.inr ⟨b, ?_, hpre⟩))
    simp only [mem_append] at hb ⊢
    tauto

theorem decideTrace_out (tb : TraceBuffer) (lookup : Lookup) (tr : BufferedTrace) (now : ℤ) :
    (tb.decideTrace lookup tr now).1.out = tb.out ∧
      (tb.decideTrace lookup tr now).1.undelivered = tb.undelivered := by
  obtain ⟨_, _, _, hsame⟩ := decideTrace_frame tb lookup tr now
  rw [hsame]
  exact ⟨rfl, rfl⟩

/-- A latched trace is kept with weight one. -/
theorem decideTrace_of_hasError (tb : TraceBuffer) (lookup : Lookup) (now : ℤ)
    (h : tr.hasError = true) :
    (tb.decideTrace lookup tr now).2 = (1, [tr.stampWeight 1]) := by
  have hw : (tb.keepWeight lookup tr now).1 = 1 := TraceBuffer.keepWeight_of_hasError h
  rw [decideTrace_keeps (by rw [hw]; exact Nat.one_pos), hw]

theorem midLeaves_advances (hm : Mid tb f) (h : MidLeaves tb₀ id spans tb f)
    (hadv : Advances tb f tb' f') :
    MidLeaves tb₀ id spans tb' f' := by
  have htr := (hadv.traces hm.kept).1
  cases hadv with
  | @decide now all tr todo weights kept lookup =>
    obtain ⟨hout, hund⟩ := decideTrace_out tb lookup tr now
    refine h.follow htr (o := []) (u := []) (by simp [hout]) (by simp [hund]) (fun x hx he => ?_)
      fun b hb => .inl (by rw [Flight.outgoing, map_append]; exact mem_append_left _ hb)
    rcases mem_cons.mp hx with rfl | hx
    · refine .inr ⟨(x.stampWeight 1).spans, ?_, ?_⟩
      · simp [Flight.outgoing, decideTrace_of_hasError tb lookup now he]
      · rw [BufferedTrace.stampWeight, bare_weighted]
    · exact .inl hx
  | @carriers now all weights kept =>
    exact h.follow htr (o := []) (u := []) (append_nil _).symm (append_nil _).symm
      (by simp [Flight.todo])
      fun b hb => .inl (by rw [Flight.outgoing, map_append]; exact mem_append_left _ hb)
  | @settle now weights kept =>
    obtain ⟨hout, hund⟩ := settle_out tb weights now
    exact h.follow htr (o := []) (u := []) (by simp [hout]) (by simp [hund]) (by simp [Flight.todo])
      fun b hb => .inl (mem_append_left _ hb)
  | @deliver batch rest lost ok =>
    cases ok with
    | true =>
      exact h.follow htr (o := [batch]) (u := []) rfl (by simp [TraceBuffer.deliverBatch])
        (by simp [Flight.todo])
        fun b hb => (mem_cons.mp hb).symm.imp_right (by simp [·])
    | false =>
      exact h.follow htr (o := []) (u := [batch]) (by simp [TraceBuffer.deliverBatch]) rfl
        (by simp [Flight.todo])
        fun b hb => (mem_cons.mp hb).symm.imp_right (by simp [·])
  | finish =>
    exact h.follow htr (o := []) (u := []) (by simp) (by simp) (by simp [Flight.todo])
      (by simp [Flight.outgoing])

theorem leaves_call (c : Call) (hw : Whole tb) (h : Leaves tb₀ id spans tb) :
    Leaves tb₀ id spans (call tb c) := by
  cases c with
  | add env rec => exact leaves_add env rec hw h
  | flush now all lookup ok =>
    obtain ⟨-, o, u, ho, hu, hcase⟩ := flush_induct
      (I := fun t f => Mid t f ∧ MidLeaves tb₀ id spans t f)
      (fun _ _ _ _ h hadv => ⟨mid_advances h.1 hadv, midLeaves_advances h.1 h.2 hadv⟩) lookup ok
      ⟨mid_start now all hw, midLeaves_start now all hw h⟩
    refine ⟨o, u, ho, hu, ?_⟩
    rcases hcase with htr | ⟨x, hx, -⟩ | ⟨b, hb, -⟩ | hb
    · exact .inl htr
    · exact absurd hx not_mem_nil
    · exact absurd hb not_mem_nil
    · exact .inr hb
  | sweep now => exact h

theorem leaves_calls (cs : List Call) (hw : Whole tb) (h : Leaves tb₀ id spans tb) :
    Leaves tb₀ id spans (calls tb cs) := by
  induction cs generalizing tb with
  | nil => exact h
  | cons c cs ih => exact ih (whole_call c hw) (leaves_call c hw h)

end leaves

/-! ### A decision that keeps, keeps -/

/-- The trace is buffered or its decision is remembered. -/
def Known (id : String) (tb : TraceBuffer) : Prop :=
  (∃ tr, tb.traces.lookup id = some tr) ∨ ∃ e, tb.decided.m.lookup id = some e

/-- The trace is latched, or was decided with a weight of at least one. -/
def Promised (id : String) (tb : TraceBuffer) : Prop :=
  (∃ tr, tb.traces.lookup id = some tr ∧ tr.hasError = true) ∨
    ∃ e, tb.decided.m.lookup id = some e ∧ 1 ≤ e.weight

section promised
variable {tb : TraceBuffer} {id : String}

/-- An error span makes the promise: it is in a latched trace, or late. -/
theorem promised_error (env : Env) (hw : Whole tb) (herr : rec.isError = true) :
    Promised rec.traceID (tb.add env rec) ∧
      ((∃ tr, (tb.add env rec).traces.lookup rec.traceID = some tr ∧ tr.hasError = true ∧
          rec ∈ tr.spans) ∨
        ∃ w : ℕ, 1 ≤ w ∧
          (tb.add env rec).decided.late = tb.decided.late ++ [rec.weighted w]) := by
  cases adds_add env rec hw with
  | buffered x x' mid was room _ _ ht hspans he =>
    have hl : (tb.add env rec).traces.lookup rec.traceID = some x' := by rw [ht, if_pos rfl]
    have hx' : x'.hasError = true := by rw [he, herr, Bool.or_true]
    exact ⟨.inl ⟨x', hl, hx'⟩, .inl ⟨x', hl, hx', by rw [hspans]; simp⟩⟩
  | refused _ clean => rw [herr] at clean; cases clean
  | followed e r ledger was dec fol ht hd =>
    cases fol with
    | parks hp => exact absurd (hw.idle.pending dec hp) not_false
    | drops _ _ hclean => rw [herr] at hclean; cases hclean
    | keeps hp hweight hwe hm =>
      refine ⟨.inr ?_, .inr ⟨_, hweight, by rw [hd]⟩⟩
      rw [hd]
      rcases hm with ⟨rfl, hwe'⟩ | rfl
      · exact ⟨e, dec, by omega⟩
      · exact ⟨_, AList.lookup_insert _, hweight⟩

theorem promised_add (env : Env) (rec : SpanRecord) (hw : Whole tb) (h : Promised id tb)
    (hk : Known id (tb.add env rec)) : Promised id (tb.add env rec) := by
  have hadds := adds_add env rec hw
  rcases h with ⟨tr, hl, he⟩ | ⟨e, hm, hweight⟩
  · obtain ⟨tr', hl', he', -⟩ := hadds.latched hl he
    exact .inl ⟨tr', hl', he'⟩
  · have hnone := hw.unbuffered hm
    -- making room may forget the decision, but then the trace is not known any more
    have hroom : ∀ {mid}, Roomed tb mid → (∃ x, mid.traces.lookup id = some x) ∨
        (∃ x, mid.decided.m.lookup id = some x) → mid.decided.m.lookup id = some e := by
      rintro mid room (⟨x, hx⟩ | ⟨x, hx⟩)
      · rw [room.traces hnone] at hx; cases hx
      · rw [hx, ← hm]; exact (room.decided hnone hx).symm
    right
    cases hadds with
    | buffered x x' mid was room _ _ ht _ _ hd =>
      have hid : id ≠ rec.traceID := by
        rintro rfl
        rcases was with was | ⟨-, hund, -⟩
        · rw [hnone] at was; cases was
        · rw [hund] at hm; cases hm
      unfold Known at hk
      rw [ht, if_neg hid, hd] at hk
      rw [hd]
      exact ⟨e, hroom room hk, hweight⟩
    | refused mid _ _ _ room _ ht hd =>
      unfold Known at hk
      rw [ht, hd] at hk
      rw [hd]
      exact ⟨e, hroom room hk, hweight⟩
    | followed e' r ledger was dec fol ht hd =>
      unfold Known at hk
      rw [ht, hd, hnone] at hk
      rw [hd]
      rcases hk with ⟨x, hx⟩ | ⟨x, hx⟩
      · cases hx
      · refine ⟨x, hx, ?_⟩
        rcases fol.decision_of hx with hx | ⟨-, hx, -⟩
        · rw [hm] at hx; cases hx; exact hweight
        · exact hx

/-- The promise in the middle of a flush: the trace is latched and buffered; or whatever the flush
    decides or has decided about it, and whatever is remembered of it, keeps it. -/
def MidPromised (id : String) (tb : TraceBuffer) (f : Flight) : Prop :=
  (∃ tr, tb.traces.lookup id = some tr ∧ tr.hasError = true) ∨
    tb.traces.lookup id = none ∧ (∀ tr ∈ f.todo, tr.id = id → tr.hasError = true) ∧
      (∀ w, (id, w) ∈ f.weights → 1 ≤ w) ∧
      ∀ e, tb.decided.m.lookup id = some e → id ∈ f.unsettled ∨ 1 ≤ e.weight

theorem midPromised_start (now : ℤ) (all : Bool) (hw : Whole tb) (h : Promised id tb) :
    MidPromised id (tb.start now all).1 (tb.start now all).2 := by
  obtain ⟨-, hm⟩ := start_decided now all hw.noParked
  have hbuf : ∀ x ∈ tb.toDecide now all, x.id = id → tb.traces.lookup id = some x := by
    rintro x hx rfl
    obtain ⟨k, hk⟩ := mem_values.mp (mem_toDecide.mp hx).1
    exact hw.kept.lookup_id hk
  have hsub : ∀ {x}, (tb.start now all).1.traces.lookup id = some x →
      tb.traces.lookup id = some x ∧ x ∉ tb.toDecide now all :=
    (start_traces hw.kept (hw.dueUnparked now all)).mp
  have hunsettled : ∀ e, (tb.start now all).1.decided.m.lookup id = some e →
      id ∈ (tb.start now all).2.unsettled ∨ tb.decided.m.lookup id = some e :=
    fun e he => (hm he).imp_left fun hid => mem_append_left _ hid
  rcases h with ⟨tr, hl, herr⟩ | ⟨e, hme, hweight⟩
  · by_cases hdue : tr ∈ tb.toDecide now all
    · right
      refine ⟨Option.eq_none_iff_forall_ne_some.mpr fun x hx => ?_, fun x hx hid => ?_, nofun,
        fun e he => (hunsettled e he).imp_right fun hme => absurd hme (hw.clash hl)⟩
      · obtain ⟨hx, hn⟩ := hsub hx
        obtain rfl := Option.some.inj (hx.symm.trans hl)
        exact absurd hdue hn
      · obtain rfl := Option.some.inj ((hbuf x hx hid).symm.trans hl)
        exact herr
    · exact .inl ⟨tr, (start_traces hw.kept (hw.dueUnparked now all)).mpr ⟨hl, hdue⟩, herr⟩
  · have hnone := hw.unbuffered hme
    right
    refine ⟨Option.eq_none_iff_forall_ne_some.mpr fun x hx => ?_, fun x hx hid => ?_, nofun,
      fun e' he' => (hunsettled e' he').imp_right fun he' => ?_⟩
    · simpa [hnone] using (hsub hx).1
    · simpa [hnone] using hbuf x hx hid
    · obtain rfl := Option.some.inj (hme.symm.trans he')
      exact hweight

theorem midPromised_advances (hm : Mid tb f) (h : MidPromised id tb f)
    (hadv : Advances tb f tb' f') : MidPromised id tb' f' := by
  have htr := (hadv.traces hm.kept).1
  obtain ⟨-, hdec⟩ := hadv.decided hm.noParked
  unfold MidPromised
  rw [htr]
  refine h.imp_right ?_
  rintro ⟨hnone, htodo, hweights, hme⟩
  have hlast : ∀ e, tb'.decided.m.lookup id = some e → id ∈ f'.unsettled ∨ 1 ≤ e.weight := by
    intro e he
    rcases hdec he with ⟨hw, -⟩ | ⟨hid, he⟩
    · exact .inr (hweights _ hw)
    · exact (hme e he).imp_left hid
  refine ⟨hnone, fun x hx hid => ?_, fun w hw => ?_, hlast⟩
  · cases hadv with
    | decide lookup => exact htodo x (mem_cons_of_mem _ hx) hid
    | carriers | settle | deliver | finish => exact absurd hx not_mem_nil
  · cases hadv with
    | @decide now all tr todo weights kept lookup =>
      rcases mem_append.mp hw with hw | hw
      · exact hweights w hw
      -- the decision on the trace itself: it is latched, so its weight is one
      · obtain ⟨rfl, rfl⟩ := Prod.mk.inj (mem_singleton.mp hw)
        have herr := htodo tr mem_cons_self rfl
        rw [decideTrace_of_hasError tb lookup now herr]
    | carriers => exact hweights w hw
    | settle | deliver | finish => exact absurd hw not_mem_nil

theorem promised_call (c : Call) (hw : Whole tb) (h : Promised id tb) (hk : Known id (call tb c)) :
    Promised id (call tb c) := by
  cases c with
  | add env rec => exact promised_add env rec hw h hk
  | flush now all lookup ok =>
    obtain ⟨-, hmid⟩ := flush_induct (I := fun t f => Mid t f ∧ MidPromised id t f)
      (fun _ _ _ _ h hadv => ⟨mid_advances h.1 hadv, midPromised_advances h.1 h.2 hadv⟩) lookup ok
      ⟨mid_start now all hw, midPromised_start now all hw h⟩
    rcases hmid with hbuf | ⟨hnone, -, -, hme⟩
    · exact .inl hbuf
    · rcases hk with ⟨tr, htr⟩ | ⟨e, he⟩
      · rw [call, hnone] at htr; cases htr
      · exact .inr ⟨e, he, (hme e he).resolve_left not_mem_nil⟩
  | sweep now => exact h

/-- The trace is buffered or its decision remembered before each of the calls and after the last. -/
def Remembers (id : String) : TraceBuffer → List Call → Prop
  | tb, [] => Known id tb
  | tb, c :: cs => Known id tb ∧ Remembers id (call tb c) cs

theorem Remembers.known : ∀ {cs : List Call} {tb : TraceBuffer}, Remembers id tb cs → Known id tb
  | [], _, h => h
  | _ :: _, _, h => h.1

theorem promised_calls (cs : List Call) (hw : Whole tb) (h : Promised id tb)
    (hr : Remembers id tb cs) : Promised id (calls tb cs) := by
  induction cs generalizing tb with
  | nil => exact h
  | cons c cs ih => exact ih (whole_call c hw) (promised_call c hw h hr.2.known) hr.2

/-- A later span of a trace that is promised and decided is late, with a weight of at least one. -/
theorem promised_late (env : Env) (hw : Whole tb) (h : Promised rec.traceID tb)
    (hm : tb.decided.m.lookup rec.traceID = some e) :
    ∃ w : ℕ, 1 ≤ w ∧ (tb.add env rec).decided.late = tb.decided.late ++ [rec.weighted w] := by
  have hweight : 1 ≤ e.weight := by
    rcases h with ⟨tr, hl, -⟩ | ⟨e', hm', hweight⟩
    · exact absurd hm (hw.clash hl)
    · obtain rfl := Option.some.inj (hm'.symm.trans hm)
      exact hweight
  cases adds_add env rec hw with
  | buffered x x' mid was =>
    rcases was with was | ⟨-, hund, -⟩
    · exact absurd hm (hw.clash was)
    · rw [hund] at hm; cases hm
  | refused _ _ _ und => rw [und] at hm; cases hm
  | followed e' r ledger was dec fol ht hd =>
    obtain rfl := Option.some.inj (dec.symm.trans hm)
    cases fol with
    | parks hp => exact absurd (hw.idle.pending dec hp) not_false
    | drops _ h0 => omega
    | keeps _ hw' => exact ⟨_, hw', by rw [hd]⟩

end promised

/-- CORRECT: after any calls on any buffer, the error spans added are those in buffered traces, among the
    late spans and handed to the drain; the spans of a latched trace stay together in it until they are
    handed over as one batch; an error span is in a latched trace or late at once; and from then on, as
    long as the trace is known, every later span of it that finds a decision is late with a weight of at
    least one. -/
theorem error_promise (cfg : Config) (cs : List Call) :
    (calls (newTraceBuffer cfg) cs).errorsHeld + (calls (newTraceBuffer cfg) cs).errorsHanded =
        errors (bag (cs.flatMap Call.added)) ∧
      (∀ id tr, (calls (newTraceBuffer cfg) cs).traces.lookup id = some tr → tr.hasError = true →
        ∀ more, Leaves (calls (newTraceBuffer cfg) cs) id tr.spans
          (calls (calls (newTraceBuffer cfg) cs) more)) ∧
      ∀ env rec, rec.isError = true →
        ((∃ tr, ((calls (newTraceBuffer cfg) cs).add env rec).traces.lookup rec.traceID = some tr ∧
            tr.hasError = true ∧ rec ∈ tr.spans) ∨
          ∃ w : ℕ, 1 ≤ w ∧ ((calls (newTraceBuffer cfg) cs).add env rec).decided.late =
            (calls (newTraceBuffer cfg) cs).decided.late ++ [rec.weighted w]) ∧
        ∀ more, Remembers rec.traceID ((calls (newTraceBuffer cfg) cs).add env rec) more →
          ∀ e, (calls ((calls (newTraceBuffer cfg) cs).add env rec) more).decided.m.lookup
              rec.traceID = some e →
            ∀ env' later, later.traceID = rec.traceID → ∃ w : ℕ, 1 ≤ w ∧
              ((calls ((calls (newTraceBuffer cfg) cs).add env rec) more).add env' later).decided.late
                = (calls ((calls (newTraceBuffer cfg) cs).add env rec) more).decided.late ++
                  [later.weighted w] := by
  have hw := whole_calls cs (whole_new cfg)
  refine ⟨?_, fun id tr hl he more => leaves_calls more hw (leaves_refl hl he), ?_⟩
  · have h := errors_calls cs (whole_new cfg)
    rw [h]
    simp [TraceBuffer.errorsHeld, TraceBuffer.errorsHanded, newTraceBuffer, newDecidedTraces, errors]
  · intro env rec herr
    obtain ⟨hprom, hput⟩ := promised_error env hw herr
    refine ⟨hput, fun more hrem e he env' later hid => ?_⟩
    have hw' := whole_add env rec hw
    refine promised_late env' (whole_calls more hw') ?_ (by rw [hid]; exact he)
    rw [hid]
    exact promised_calls more hw' hprom hrem

/-- A span of a trace that a ratio of 1000 does not sample. -/
def rare (spanID status : String) : SpanRecord :=
  { projectID := 1, traceID := "0000000000000001", spanID, status, name := "op" }

/-- The trace is buffered clean and dropped by a flush of everything. -/
def droppedClean : List Call :=
  [.add ⟨0, none⟩ (rare "1" "ok"), .flush 10 true (fun _ => none) fun _ => true]

/-- The first error span of a dropped trace is late, and the span after it too. -/
theorem error_promise_dropped_before :
    ∃ e, (calls (newTraceBuffer { ttl := 100, maxSpans := 10 }) droppedClean).decided.m.lookup
        "0000000000000001" = some e ∧ e.weight = 0 ∧
      ∃ w : ℕ, 1 ≤ w ∧
        ((calls ((calls (newTraceBuffer { ttl := 100, maxSpans := 10 }) droppedClean).add ⟨11, none⟩
            (rare "2" "error")) []).add ⟨12, none⟩ (rare "3" "ok")).decided.late =
          [(rare "2" "error").weighted 1] ++ [(rare "3" "ok").weighted w] :=
  ⟨_, rfl, rfl, ((error_promise { ttl := 100, maxSpans := 10 } droppedClean).2.2 ⟨11, none⟩
    (rare "2" "error") rfl).2 [] (.inr ⟨_, rfl⟩) _ rfl ⟨12, none⟩ (rare "3" "ok") rfl⟩

end Spanbarn.Ingest
