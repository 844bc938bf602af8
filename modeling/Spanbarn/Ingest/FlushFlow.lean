import Spanbarn.Ingest.Holdings

/-! How spans move in a flush, and which decisions are pending.

    Between its two halves a flush has the due traces in its hands. Their decisions are pending, so spans
    of them are parked; a parked span is always of a trace some flush has yet to settle. -/

namespace Spanbarn.Ingest
open List Spanbarn.Model Spanbarn.Schemes Spanbarn.Ledger Spanbarn.Sampling

/-! ### Taking the due traces out -/

variable {tb : TraceBuffer} {now : ℤ} {tr : BufferedTrace}

theorem mem_toDecide {all : Bool} :
    tr ∈ tb.toDecide now all ↔ tr ∈ values tb.traces ∧ (all || tb.due tr now) = true := by
  rw [TraceBuffer.toDecide, (perm_insertionSort _ _).mem_iff, mem_filter]

/-- The traces still to be taken out: buffered, each once, none with parked spans. -/
structure Takes (tb : TraceBuffer) (trs : List BufferedTrace) : Prop where
  buffered : ∀ tr ∈ trs, tb.traces.lookup tr.id = some tr
  nodup : (trs.map BufferedTrace.id).Nodup
  unparked : ∀ tr ∈ trs, tb.decided.parked tr.id = []

theorem values_nodup (hk : Kept tb) :
    ((values tb.traces).map BufferedTrace.id).Nodup := by
  have hkeys : (values tb.traces).map BufferedTrace.id = tb.traces.keys := by
    rw [values, map_map, AList.keys, List.keys]
    refine map_congr_left fun e he => ?_
    exact hk.keys (AList.mem_lookup_iff.mpr he)
  rw [hkeys]
  exact tb.traces.keys_nodup

/-- No due trace has parked spans. -/
def DueUnparked (tb : TraceBuffer) (now : ℤ) (all : Bool) : Prop :=
  ∀ tr ∈ values tb.traces, (all || tb.due tr now) = true → tb.decided.parked tr.id = []

instance (tb : TraceBuffer) (now : ℤ) (all : Bool) : Decidable (DueUnparked tb now all) := by
  unfold DueUnparked; infer_instance

theorem takes_toDecide {all : Bool} (hk : Kept tb) (hu : DueUnparked tb now all) :
    Takes tb (tb.toDecide now all) := by
  refine ⟨fun tr htr => ?_, ?_, fun tr htr => hu tr (mem_toDecide.mp htr).1 (mem_toDecide.mp htr).2⟩
  · obtain ⟨id, hid⟩ := mem_values.mp (mem_toDecide.mp htr).1
    exact hk.lookup_id hid
  · have hperm := (perm_insertionSort (fun a b : BufferedTrace => a.seq ≤ b.seq)
      ((values tb.traces).filter fun tr => all || tb.due tr now)).map BufferedTrace.id
    exact hperm.nodup_iff.mpr ((values_nodup hk).sublist (filter_sublist.map _))

theorem takeOut_puts (tb : TraceBuffer) (now : ℤ) (tr : BufferedTrace) :
    Puts tr.id 0 true tb.decided (tb.takeOut now tr).decided := puts_put ..

theorem Takes.tail {trs : List BufferedTrace} (h : Takes tb (tr :: trs)) :
    Takes (tb.takeOut now tr) trs := by
  have hnd := nodup_cons.mp h.nodup
  refine ⟨fun x hx => ?_, hnd.2, fun x hx => ?_⟩
  · have hne : x.id ≠ tr.id := fun he => hnd.1 (he ▸ mem_map_of_mem hx)
    change (tb.traces.erase tr.id).lookup x.id = some x
    rw [AList.lookup_erase_ne hne]
    exact h.buffered x (mem_cons_of_mem _ hx)
  · rw [(takeOut_puts tb now tr).parked]
    split
    · rfl
    · exact h.unparked x (mem_cons_of_mem _ hx)

theorem kept_takeOut (hk : Kept tb) (now : ℤ) (tr : BufferedTrace) :
    Kept (tb.takeOut now tr) :=
  ⟨fun hx => hk.keys (lookup_of_erase hx).2, fun hx => hk.latched (lookup_of_erase hx).2,
    hk.rescued, hk.carried, (takeOut_puts tb now tr).parked_of hk.parked⟩

theorem takeOut_flow (now : ℤ) (hl : tb.traces.lookup tr.id = some tr)
    (hp : tb.decided.parked tr.id = []) :
    Flow tb.stock ((tb.takeOut now tr).stock.plus tr.spans) [] [] [] := by
  have hd := puts_bags (takeOut_puts tb now tr)
  rw [hp, bag_nil, add_zero] at hd
  have ht : total (fun tr => bag tr.spans) (tb.takeOut now tr).traces + bag tr.spans =
      total (fun tr => bag tr.spans) tb.traces := total_erase (f := fun tr => bag tr.spans) hl
  refine ⟨?_, rfl⟩
  simp only [Stock.plus, TraceBuffer.stock, TraceBuffer.bags, ← ht, bag_nil, add_zero]
  calc _ = total (fun tr => bag tr.spans) (tb.takeOut now tr).traces + bag tr.spans +
          bag (spansOf tb.rescuedAtCap) + (total bag (tb.takeOut now tr).decided.held +
          bag (tb.takeOut now tr).decided.late) + bag (tb.out ++ tb.undelivered).flatten := by
        change _ + bag (spansOf tb.rescuedAtCap) + _ + _ + _ +
          bag (tb.out ++ tb.undelivered).flatten = _
        ac_rfl
    _ = _ := by rw [hd]; ac_rfl

theorem takeOut_all : ∀ (trs : List BufferedTrace) {tb : TraceBuffer} (now : ℤ), Kept tb →
    Takes tb trs → Kept (trs.foldl (TraceBuffer.takeOut now) tb) ∧
      Flow tb.stock ((trs.foldl (TraceBuffer.takeOut now) tb).stock.plus (spansOf trs)) [] [] []
  | [], tb, now, hk, _ => ⟨hk, by simpa using Flow.refl _⟩
  | tr :: trs, tb, now, hk, h => by
    obtain ⟨hk', hf⟩ := takeOut_all trs now (kept_takeOut hk now tr) h.tail
    refine ⟨hk', ?_⟩
    have hone := takeOut_flow now (h.buffered tr mem_cons_self)
      (h.unparked tr mem_cons_self)
    have hrest := hf.plus tr.spans
    rw [← Stock.plus_append] at hrest
    exact hone.trans (hrest.congr rfl (by simp [add_comm]))

/-- A flush of all traces leaves none in the buffer. -/
theorem takeOut_all_empty : ∀ (trs : List BufferedTrace) {tb : TraceBuffer} (now : ℤ), Kept tb →
    (∀ id tr, tb.traces.lookup id = some tr → tr ∈ trs) →
    (trs.foldl (TraceBuffer.takeOut now) tb).traces = ∅
  | [], tb, now, _, h => eq_empty fun id => by
    cases hl : tb.traces.lookup id with
    | none => exact hl
    | some tr => exact absurd (h id tr hl) not_mem_nil
  | tr :: trs, tb, now, hk, h => by
    refine takeOut_all_empty trs now (kept_takeOut hk now tr) fun id x hx => ?_
    obtain ⟨hne, hold⟩ := lookup_of_erase hx
    rcases mem_cons.mp (h id x hold) with rfl | hmem
    · exact absurd (hk.keys hold).symm hne
    · exact hmem

theorem start_all_empty (now : ℤ) (hk : Kept tb) :
    (tb.start now true).1.traces = ∅ ∧ (tb.start now true).1.rescuedAtCap = [] :=
  ⟨takeOut_all_empty _ now hk fun id _ htr =>
    mem_toDecide.mpr ⟨mem_values.mpr ⟨id, htr⟩, rfl⟩, rfl⟩

/-- What the first half takes out was latched and becomes the flush's. -/
theorem start_flow {all : Bool} (hk : Kept tb) (hu : DueUnparked tb now all) :
    Kept (tb.start now all).1 ∧
      Flow tb.stock ((tb.start now all).1.stock.plus (tb.start now all).2.spans) [] [] [] := by
  obtain ⟨hk', hf⟩ := takeOut_all _ now hk (takes_toDecide hk hu)
  generalize hmid : (tb.toDecide now all).foldl (TraceBuffer.takeOut now) tb = mid at hk' hf
  have hforget := forgets_expire mid.decided now
  have htb : (tb.start now all).1 = { mid with
      sacrificeQ := mid.pruneQueue mid.sacrificeQ, anyQ := mid.pruneQueue mid.anyQ
      decided := mid.decided.expire now, rescuedAtCap := [] } := by
    rw [← hmid]; rfl
  have hfl : (tb.start now all).2 =
      .deciding now all (tb.toDecide now all) [] mid.rescuedAtCap := by
    rw [← hmid]; rfl
  rw [htb, hfl]
  refine ⟨⟨hk'.keys, hk'.latched, forall_mem_nil _, hk'.carried, fun hl => ?_⟩, ?_⟩
  · rw [hforget.held] at hl
    exact hk'.parked hl
  · have hmove : Flow mid.stock (Stock.plus (TraceBuffer.stock { mid with
        sacrificeQ := mid.pruneQueue mid.sacrificeQ, anyQ := mid.pruneQueue mid.anyQ
        decided := mid.decided.expire now, rescuedAtCap := [] }) (spansOf mid.rescuedAtCap))
        [] [] [] := by
      refine ⟨?_, rfl⟩
      simp only [Stock.plus, TraceBuffer.stock, TraceBuffer.bags, hforget.held, hforget.late,
        spansOf_nil, bag_nil, add_zero]
      ac_rfl
    have hrest := hmove.plus (spansOf (tb.toDecide now all))
    rw [← Stock.plus_append] at hrest
    exact hf.trans (hrest.congr rfl (by simp [Flight.spans, add_comm]))

/-! ### Deciding, carrying, settling, delivering -/

theorem decideTrace_flow (lookup : Lookup) (now : ℤ) (hk : Kept tb) (htr : tr.Latched) :
    Kept (tb.decideTrace lookup tr now).1 ∧ ∃ left, Clean left ∧
      Flow (tb.stock.plus tr.spans) ((tb.decideTrace lookup tr now).1.stock.plus
        (spansOf (tb.decideTrace lookup tr now).2.2)) [] left [] := by
  have hcarry := TraceBuffer.keepWeight_allHeld tb hk.carried lookup tr now
  have herr : (tb.keepWeight lookup tr now).1 = 0 → tr.hasError = false := by
    intro h0
    cases he : tr.hasError with
    | false => rfl
    | true => rw [TraceBuffer.keepWeight_of_hasError he] at h0; cases h0
  rcases Nat.eq_zero_or_pos (tb.keepWeight lookup tr now).1 with hw | hw
  · have hno := herr hw
    rw [decideTrace_drops hw]
    refine ⟨⟨hk.keys, hk.latched, hk.rescued,
      hcarry.drop (carrier_of_latched htr hno rfl) now, hk.parked⟩, tr.spans, htr.clean hno, ?_, ?_⟩
    · simp only [Stock.plus, TraceBuffer.stock, TraceBuffer.bags, TraceBuffer.drop, spansOf_nil,
        bag_nil, add_zero]
      ac_rfl
    · simp only [Stock.plus, TraceBuffer.stock, TraceBuffer.drop, balance_addSpans, Column.sign,
        length_nil]
      omega
  · rw [decideTrace_keeps hw]
    refine ⟨⟨hk.keys, hk.latched, hk.rescued, hcarry, hk.parked⟩, [], clean_nil, ?_, rfl⟩
    simp [Stock.plus, TraceBuffer.stock, TraceBuffer.bags, BufferedTrace.stampWeight]

theorem balance_ledgerCarriers : ∀ (trs : List BufferedTrace) (t : Tally),
    (∀ tr ∈ trs, tr.droppedAs.sign = -1) →
    balance (ledgerCarriers t trs) = balance t + (spansOf trs).length
  | [], t, _ => by simp [ledgerCarriers]
  | tr :: trs, t, h => by
    rw [ledgerCarriers, balance_ledgerCarriers trs _ fun x hx => h x (mem_cons_of_mem _ hx),
      balance_addSpans, h tr mem_cons_self, spansOf_cons, length_append]
    push_cast
    ring

/-- Carriers come back in: they are clean, and their exit is taken back. -/
theorem carriers_flow (now : ℤ) (all : Bool) (hk : Kept tb) :
    Kept (tb.carriers now all).1 ∧ Clean (spansOf (tb.carriers now all).2) ∧
      Flow tb.stock ((tb.carriers now all).1.stock.plus (spansOf (tb.carriers now all).2))
        (spansOf (tb.carriers now all).2) [] [] := by
  obtain ⟨hheld, hout⟩ := hk.carried.expired now all
  have hexit : ∀ tr ∈ (tb.carriers now all).2, tr.droppedAs.sign = -1 := by
    intro tr htr
    obtain ⟨h, w, hh, rfl⟩ := hout tr htr
    exact hh.exit
  refine ⟨⟨hk.keys, hk.latched, hk.rescued, hheld, hk.parked⟩, fun r hr => ?_, ?_, ?_⟩
  · obtain ⟨tr, htr, hr⟩ := mem_flatMap.mp hr
    obtain ⟨h, w, hh, rfl⟩ := hout tr htr
    exact hh.clean.weighted w r hr
  · simp only [Stock.plus, TraceBuffer.stock, TraceBuffer.bags, TraceBuffer.carriers, bag_nil,
      add_zero]
    ac_rfl
  · have hb := balance_ledgerCarriers _ tb.ledger hexit
    simp only [TraceBuffer.carriers] at hb
    simp only [Stock.plus, TraceBuffer.stock, TraceBuffer.carriers, hb, length_nil]
    omega

/-- Spans of a trace whose decision is made and not pending all follow it. -/
structure Followed (tb tb' : TraceBuffer) (id : String) : Prop where
  kept : Kept tb'
  traces : tb'.traces = tb.traces
  rescued : tb'.rescuedAtCap = tb.rescuedAtCap
  parked : tb'.decided.held = tb.decided.held
  decision : ∃ e, tb'.decided.m.lookup id = some e ∧ e.pending = false
  others : ∀ k, k ≠ id → tb'.decided.m.lookup k = tb.decided.m.lookup k

theorem followAll_flow : ∀ (recs : List SpanRecord) {tb : TraceBuffer} {id : String}, Kept tb →
    (∃ e, tb.decided.m.lookup id = some e ∧ e.pending = false) → (∀ r ∈ recs, r.traceID = id) →
    Followed tb (tb.followAll recs) id ∧
      ∃ left, Clean left ∧ Flow (tb.stock.plus recs) (tb.followAll recs).stock [] left []
  | [], tb, id, hk, he, _ =>
    ⟨⟨hk, rfl, rfl, rfl, he, fun _ _ => rfl⟩, [], clean_nil, by
      rw [Stock.plus_nil]; exact Flow.refl _⟩
  | r :: recs, tb, id, hk, ⟨e, he, hp⟩, hid => by
    obtain rfl : r.traceID = id := hid r mem_cons_self
    have hrest : ∀ x ∈ recs, x.traceID = r.traceID := fun x hx => hid x (mem_cons_of_mem _ hx)
    cases hfol : tb.decided.follow tb.ledger r with
    | none => rw [follow_eq_none.mp hfol] at he; cases he
    | some q =>
      obtain ⟨hk', left, hleft, hf⟩ := follow_flow hk hfol
      obtain ⟨e', he', hcase⟩ := follows_follow hfol
      obtain rfl : e = e' := Option.some.inj (he.symm.trans he')
      have hq : q.1.held = tb.decided.held ∧
          (∃ x, q.1.m.lookup r.traceID = some x ∧ x.pending = false) ∧
          ∀ k, k ≠ r.traceID → q.1.m.lookup k = tb.decided.m.lookup k := by
        cases hcase with
        | parks hpe => rw [hp] at hpe; cases hpe
        | drops => exact ⟨rfl, ⟨e, he, hp⟩, fun _ _ => rfl⟩
        | keeps _ _ _ hm =>
          rcases hm with ⟨rfl, -⟩ | rfl
          · exact ⟨rfl, ⟨e, he, hp⟩, fun _ _ => rfl⟩
          · exact ⟨rfl, ⟨_, AList.lookup_insert _, hp⟩, fun k hk => AList.lookup_insert_ne hk⟩
      obtain ⟨hF, more, hmore, hg⟩ := followAll_flow recs hk' hq.2.1 hrest
      have heq : tb.followAll (r :: recs) = (tb.followed q).followAll recs := by
        rw [TraceBuffer.followAll]; simp only [hfol]
      rw [heq]
      refine ⟨⟨hF.kept, hF.traces, hF.rescued, hF.parked.trans hq.1, hF.decision,
        fun k hk => (hF.others k hk).trans (hq.2.2 k hk)⟩, left ++ more, hleft.append hmore, ?_⟩
      have hplus := (hf.plus recs).trans hg
      rw [← Stock.plus_append] at hplus
      simpa using hplus

/-- What settling one decision does: its parked spans follow it and nothing is pending for it. -/
theorem settleOne_flow (now : ℤ) (w : String × ℕ) (hk : Kept tb) :
    Followed { tb with decided := (tb.decided.put w.1 w.2 false now).2 } (tb.settleOne now w) w.1 ∧
      ∃ left, Clean left ∧ Flow tb.stock (tb.settleOne now w).stock [] left [] := by
  have hputs := puts_put tb.decided w.1 w.2 false now
  have hk' : Kept { tb with decided := (tb.decided.put w.1 w.2 false now).2 } :=
    ⟨hk.keys, hk.latched, hk.rescued, hk.carried, hputs.parked_of hk.parked⟩
  obtain ⟨seq, hself⟩ := hputs.self
  obtain ⟨hF, left, hleft, hf⟩ := followAll_flow (tb.decided.put w.1 w.2 false now).1 hk'
    ⟨_, hself, rfl⟩ fun r hr => hk.mem_parked (by rw [put_fst] at hr; exact hr)
  refine ⟨hF, left, hleft, ?_⟩
  have htake : Flow tb.stock (Stock.plus (TraceBuffer.stock
      { tb with decided := (tb.decided.put w.1 w.2 false now).2 })
      (tb.decided.put w.1 w.2 false now).1) [] [] [] := by
    have hd := puts_bags hputs
    refine ⟨?_, rfl⟩
    simp only [Stock.plus, TraceBuffer.stock, TraceBuffer.bags, put_fst, bag_nil, add_zero]
    calc _ = total (fun tr => bag tr.spans) tb.traces + bag (spansOf tb.rescuedAtCap) +
            (total bag (tb.decided.put w.1 w.2 false now).2.held +
              bag (tb.decided.put w.1 w.2 false now).2.late + bag (tb.decided.parked w.1)) +
            bag (tb.out ++ tb.undelivered).flatten := by ac_rfl
      _ = _ := by rw [hd]; ac_rfl
  exact htake.trans hf

theorem settleAll_flow : ∀ (ws : List (String × ℕ)) {tb : TraceBuffer} (now : ℤ), Kept tb →
    Kept (ws.foldl (TraceBuffer.settleOne now) tb) ∧ ∃ left, Clean left ∧
      Flow tb.stock (ws.foldl (TraceBuffer.settleOne now) tb).stock [] left []
  | [], tb, now, hk => ⟨hk, [], clean_nil, .refl _⟩
  | w :: ws, tb, now, hk => by
    obtain ⟨hF, left, hleft, hf⟩ := settleOne_flow now w hk
    obtain ⟨hk', more, hmore, hg⟩ := settleAll_flow ws now hF.kept
    exact ⟨hk', left ++ more, hleft.append hmore, by simpa using hf.trans hg⟩

/-- Settling touches no buffered and no rescued trace. -/
theorem settleAll_traces : ∀ (ws : List (String × ℕ)) {tb : TraceBuffer} (now : ℤ), Kept tb →
    (ws.foldl (TraceBuffer.settleOne now) tb).traces = tb.traces ∧
      (ws.foldl (TraceBuffer.settleOne now) tb).rescuedAtCap = tb.rescuedAtCap
  | [], tb, now, _ => ⟨rfl, rfl⟩
  | w :: ws, tb, now, hk => by
    obtain ⟨hF, -⟩ := settleOne_flow now w hk
    obtain ⟨h1, h2⟩ := settleAll_traces ws now hF.kept
    exact ⟨h1.trans hF.traces, h2.trans hF.rescued⟩

theorem settle_flow (ws : List (String × ℕ)) (now : ℤ) (hk : Kept tb) :
    Kept (tb.settle ws now).1 ∧ ∃ left, Clean left ∧
      Flow tb.stock ((tb.settle ws now).1.stock.plus (tb.settle ws now).2) [] left [] := by
  obtain ⟨hk', left, hleft, hf⟩ := settleAll_flow ws now hk
  refine ⟨⟨hk'.keys, hk'.latched, hk'.rescued, hk'.carried, hk'.parked⟩, left, hleft, ?_⟩
  have htake : Flow (ws.foldl (TraceBuffer.settleOne now) tb).stock
      ((tb.settle ws now).1.stock.plus (tb.settle ws now).2) [] [] [] := by
    refine ⟨?_, rfl⟩
    simp [Stock.plus, TraceBuffer.stock, TraceBuffer.bags, TraceBuffer.settle,
      DecidedTraces.takeLate]
  simpa using hf.trans htake

theorem deliverBatch_flow (tb : TraceBuffer) (ok : Bool) (spans : List SpanRecord) :
    Flow (tb.stock.plus spans) (tb.deliverBatch ok spans).stock [] [] [] := by
  cases ok with
  | true =>
    refine ⟨?_, ?_⟩
    · simp only [Stock.plus, TraceBuffer.stock, TraceBuffer.bags, TraceBuffer.deliverBatch, if_true,
        flatten_append, flatten_cons, flatten_nil, bag_append, bag_nil, add_zero]
      ac_rfl
    · simp only [Stock.plus, TraceBuffer.stock, TraceBuffer.deliverBatch, if_true, balance_addSpans,
        Column.sign, flatten_append, flatten_cons, flatten_nil, bag_append, bag_nil,
        Multiset.card_add, card_bag, length_nil, Multiset.card_zero]
      omega
  | false =>
    refine ⟨?_, ?_⟩
    · simp only [Stock.plus, TraceBuffer.stock, TraceBuffer.bags, TraceBuffer.deliverBatch,
        Bool.false_eq_true, if_false, flatten_append, flatten_cons, flatten_nil,
        bag_append, bag_nil, add_zero]
      ac_rfl
    · simp only [Stock.plus, TraceBuffer.stock, TraceBuffer.deliverBatch, Bool.false_eq_true,
        if_false, balance_addSpans, Column.sign, flatten_append, flatten_cons,
        flatten_nil, bag_append, bag_nil, Multiset.card_add, card_bag, length_nil,
        Multiset.card_zero]
      omega

/-! ### One piece -/

/-- What holds of a flush on its way: its undecided traces are latched. -/
def Flight.Latched : Flight → Prop
  | .deciding _ _ todo _ _ => ∀ tr ∈ todo, tr.Latched
  | _ => True

theorem start_latched {all : Bool} (hk : Kept tb) :
    (tb.start now all).2.Latched := by
  intro tr htr
  obtain ⟨id, hid⟩ := mem_values.mp (mem_toDecide.mp htr).1
  exact hk.latched hid

theorem batches_flatten (kept : List BufferedTrace) (late : List SpanRecord) :
    (batches kept late).flatten = spansOf kept ++ late := by
  unfold batches spansOf
  cases late with
  | nil | cons r late => simp [List.flatMap]

variable {tb' : TraceBuffer} {f f' : Flight}

/-- A piece of a flush: clean carriers come in, clean traces leave, nothing is lost. -/
theorem Advances.flow (h : Advances tb f tb' f') (hk : Kept tb) (hf : f.Latched) :
    Kept tb' ∧ f'.Latched ∧ ∃ enter left, Clean enter ∧ Clean left ∧
      Flow (tb.stock.plus f.spans) (tb'.stock.plus f'.spans) enter left [] := by
  cases h with
  | @decide now all tr todo weights kept lookup =>
    obtain ⟨hk', left, hleft, hflow⟩ := decideTrace_flow lookup now hk (hf tr mem_cons_self)
    refine ⟨hk', fun x hx => hf x (mem_cons_of_mem _ hx), [], left, clean_nil, hleft, ?_⟩
    have hp := hflow.plus (spansOf todo ++ spansOf kept)
    rw [← Stock.plus_append, ← Stock.plus_append] at hp
    refine hp.congr ?_ ?_
    · simp only [Flight.spans, spansOf_cons, bag_append]; ac_rfl
    · simp only [Flight.spans, spansOf_append, bag_append]; ac_rfl
  | @carriers now all weights kept =>
    obtain ⟨hk', hclean, hflow⟩ := carriers_flow now all hk
    refine ⟨hk', trivial, _, [], hclean, clean_nil, ?_⟩
    have hp := hflow.plus (spansOf kept)
    rw [← Stock.plus_append] at hp
    exact hp.congr rfl (by simp [Flight.spans, add_comm])
  | @settle now weights kept =>
    obtain ⟨hk', left, hleft, hflow⟩ := settle_flow weights now hk
    refine ⟨hk', trivial, [], left, clean_nil, hleft, ?_⟩
    have hp := hflow.plus (spansOf kept)
    rw [← Stock.plus_append] at hp
    exact hp.congr rfl (by simp [Flight.spans, batches_flatten, add_comm])
  | @deliver spans rest lost ok =>
    have hk' : Kept (tb.deliverBatch ok spans) := by
      cases ok <;> exact ⟨hk.keys, hk.latched, hk.rescued, hk.carried, hk.parked⟩
    refine ⟨hk', trivial, [], [], clean_nil, clean_nil, ?_⟩
    have hp := (deliverBatch_flow tb ok spans).plus rest.flatten
    rw [← Stock.plus_append] at hp
    exact hp
  | finish =>
    exact ⟨⟨hk.keys, hk.latched, hk.rescued, hk.carried, hk.parked⟩, trivial, [], [], clean_nil,
      clean_nil, Flow.refl _⟩

/-- A piece of a flush touches no buffered and no rescued trace. -/
theorem Advances.traces (h : Advances tb f tb' f') (hk : Kept tb) :
    tb'.traces = tb.traces ∧ tb'.rescuedAtCap = tb.rescuedAtCap := by
  cases h with
  | decide lookup =>
    obtain ⟨_, _, _, hsame⟩ := decideTrace_frame tb lookup _ _
    rw [hsame]
    exact ⟨rfl, rfl⟩
  | carriers | finish => exact ⟨rfl, rfl⟩
  | settle => exact settleAll_traces _ _ hk
  | deliver ok => cases ok <;> exact ⟨rfl, rfl⟩

/-! ### Pending decisions -/

/-- The traces a flush has taken out and not settled. -/
def Flight.unsettled : Flight → List String
  | .deciding _ _ todo weights _ => todo.map BufferedTrace.id ++ weights.map Prod.fst
  | .settling _ weights _ => weights.map Prod.fst
  | _ => []

/-- Only traces in `U` have a pending decision or parked spans. -/
structure Covers (U : String → Prop) (d : DecidedTraces) : Prop where
  pending : ∀ {id e}, d.m.lookup id = some e → e.pending = true → U id
  parked : ∀ {id}, d.parked id ≠ [] → U id

section covers
variable {U V : String → Prop} {d d' : DecidedTraces}

theorem Covers.mono (h : Covers U d) (hUV : ∀ id, U id → V id) : Covers V d :=
  ⟨fun hm hp => hUV _ (h.pending hm hp), fun hp => hUV _ (h.parked hp)⟩

theorem covers_new (ttl : Duration) (n : ℕ) : Covers U (newDecidedTraces ttl n) :=
  ⟨fun h => by simp [newDecidedTraces] at h, fun h => absurd rfl h⟩

theorem Covers.forgets (h : Covers U d) (hf : Forgets d d') : Covers U d' :=
  ⟨fun hm hp => h.pending (hf.m hm) hp, fun hp => h.parked (by rwa [hf.parked] at hp)⟩

theorem Covers.puts {id : String} {w : ℕ} {pending : Bool} (h : Covers U d)
    (hp : Puts id w pending d d') (hV : ∀ k, U k → k ≠ id → V k) (hid : pending = true → V id) :
    Covers V d' := by
  refine ⟨fun {k e} hm hpe => ?_, fun {k} hk => ?_⟩
  · by_cases hki : k = id
    · subst hki
      obtain ⟨seq, hself⟩ := hp.self
      obtain rfl := Option.some.inj (hself.symm.trans hm)
      exact hid hpe
    · exact hV k (h.pending (hp.m hki hm) hpe) hki
  · rw [hp.parked] at hk
    split at hk
    · exact absurd rfl hk
    · next hki => exact hV k (h.parked hk) hki

theorem Covers.follow {ledger : Tally} {rec : SpanRecord} {r : DecidedTraces × Tally}
    (h : Covers U d) (hf : d.follow ledger rec = some r) : Covers U r.1 := by
  obtain ⟨e, hm, hcase⟩ := follows_follow hf
  cases hcase with
  | parks hp =>
    refine ⟨h.pending, fun {k} hk => ?_⟩
    by_cases hki : k = rec.traceID
    · rw [hki]; exact h.pending hm hp
    · have hk' : d.parked k ≠ [] := by
        unfold DecidedTraces.parked at hk ⊢
        rwa [AList.lookup_insert_ne hki] at hk
      exact h.parked hk'
  | drops => exact ⟨h.pending, h.parked⟩
  | keeps hp _ _ hmm =>
    refine ⟨fun {k x} hx hpx => ?_, h.parked⟩
    rcases hmm with ⟨rfl, -⟩ | rfl
    · exact h.pending hx hpx
    · rcases lookup_of_insert hx with ⟨rfl, rfl⟩ | ⟨-, hx⟩
      · rw [hp] at hpx; cases hpx
      · exact h.pending hx hpx

end covers

variable {U : String → Prop}

theorem covers_ensureRoom (env : Env) (keep : Option String) (h : Covers U tb.decided) :
    Covers U (tb.ensureRoom env keep).2.decided := by
  refine ensureRoom_induct (P := fun t => Covers U t.decided) (fun t q q' h => h) ?_ h
  intro t tr t' h hv he
  obtain ⟨w, hp⟩ := he.puts
  exact h.puts hp (fun k hk _ => hk) nofun

theorem admitSpan_decided (tb : TraceBuffer) (env : Env) (rec : SpanRecord) (tr : Option BufferedTrace) :
    (tb.admitSpan env rec tr).decided = (tb.ensureRoom env (tr.map BufferedTrace.id)).2.decided := by
  unfold TraceBuffer.admitSpan
  simp only
  split
  · rfl
  · cases tr <;> rfl

theorem covers_add (env : Env) (rec : SpanRecord) (h : Covers U tb.decided) :
    Covers U (tb.add env rec).decided := by
  unfold TraceBuffer.add TraceBuffer.route
  have h' : Covers U (tb.accept rec).decided := h
  cases (tb.accept rec).traces.lookup rec.traceID with
  | some tr => simp only [admitSpan_decided]; exact covers_ensureRoom env _ h'
  | none =>
    cases hf : (tb.accept rec).decided.follow (tb.accept rec).ledger rec with
    | some r => exact h'.follow hf
    | none => simp only [admitSpan_decided]; exact covers_ensureRoom env _ h'

theorem covers_start {all : Bool} (h : Covers U tb.decided) :
    Covers (fun id => U id ∨ id ∈ (tb.start now all).2.unsettled) (tb.start now all).1.decided := by
  have hall : ∀ (trs : List BufferedTrace) (t : TraceBuffer) (V : String → Prop),
      Covers V t.decided → (∀ tr ∈ trs, V tr.id) →
      Covers V (trs.foldl (TraceBuffer.takeOut now) t).decided := by
    intro trs
    induction trs with
    | nil => exact fun t V h _ => h
    | cons tr trs ih =>
      intro t V h hV
      refine ih _ V (h.puts (takeOut_puts t now tr) (fun k hk _ => hk) fun _ => ?_)
        fun x hx => hV x (mem_cons_of_mem _ hx)
      exact hV tr mem_cons_self
  refine Covers.forgets (hall (tb.toDecide now all) tb _ (h.mono fun _ => .inl) fun tr htr => ?_)
    (forgets_expire _ now)
  right
  exact mem_append_left _ (mem_map_of_mem htr)

theorem covers_settle (ws : List (String × ℕ)) (now : ℤ) (hk : Kept tb) (h : Covers U tb.decided) :
    Covers (fun id => U id ∧ id ∉ ws.map Prod.fst) (tb.settle ws now).1.decided := by
  have hall : ∀ (ws : List (String × ℕ)) (t : TraceBuffer) (V : String → Prop), Kept t →
      Covers V t.decided →
      Covers (fun id => V id ∧ id ∉ ws.map Prod.fst)
        (ws.foldl (TraceBuffer.settleOne now) t).decided := by
    intro ws
    induction ws with
    | nil => exact fun t V _ h => h.mono fun _ hv => ⟨hv, not_mem_nil⟩
    | cons w ws ih =>
      intro t V hk h
      obtain ⟨hF, -⟩ := settleOne_flow now w hk
      have hput : Covers (fun id => V id ∧ id ≠ w.1) (t.decided.put w.1 w.2 false now).2 :=
        h.puts (puts_put ..) (fun k hk hne => ⟨hk, hne⟩) nofun
      have hone : Covers (fun id => V id ∧ id ≠ w.1) (t.settleOne now w).decided := by
        refine ⟨fun {k e} hm hp => ?_, fun {k} hpk => hput.parked ?_⟩
        · by_cases hkw : k = w.1
          · subst hkw
            obtain ⟨e', he', hpe⟩ := hF.decision
            obtain rfl := Option.some.inj (he'.symm.trans hm)
            rw [hpe] at hp
            cases hp
          · exact hput.pending ((hF.others k hkw).symm.trans hm) hp
        · unfold DecidedTraces.parked at hpk ⊢
          rwa [hF.parked] at hpk
      refine (ih _ _ hF.kept hone).mono fun id hid => ⟨hid.1.1, ?_⟩
      rw [map_cons, mem_cons, not_or]
      exact ⟨hid.1.2, hid.2⟩
  exact ⟨(hall ws tb U hk h).pending, (hall ws tb U hk h).parked⟩

/-- A piece of a flush leaves nothing pending but its own traces and those of the others. -/
theorem Advances.covers (h : Advances tb f tb' f') (hk : Kept tb)
    (hc : Covers (fun id => U id ∨ id ∈ f.unsettled) tb.decided) :
    Covers (fun id => U id ∨ id ∈ f'.unsettled) tb'.decided := by
  cases h with
  | @decide now all tr todo weights kept lookup =>
    obtain ⟨_, _, _, hsame⟩ := decideTrace_frame tb lookup tr now
    rw [hsame]
    refine hc.mono fun id hid => hid.imp_right fun hid => ?_
    simp only [Flight.unsettled, map_cons, map_append, map_nil, cons_append,
      mem_cons, mem_append, not_mem_nil, or_false] at hid ⊢
    tauto
  | carriers => exact hc
  | @settle now weights kept =>
    refine (covers_settle weights now hk hc).mono fun id hid => .inl ?_
    exact hid.1.resolve_right hid.2
  | @deliver spans rest lost ok => cases ok <;> exact hc
  | finish => exact hc

end Spanbarn.Ingest
