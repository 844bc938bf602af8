import Spanbarn.Ingest.Conservation

/-! Refusal: a span is turned away only when nothing else can go.

    Victims are found through `anyQ`, which every buffered trace enters once. An entry is consumed when
    it is passed, also when the trace it names may not go at that moment:

        anyQ   t u v        Add for t: t is passed over and loses its entry, u is evicted
                 ▲

    A trace with an error never goes, so its entry is not missed. A trace that was passed over because
    the span is its own is: it can never be evicted again. As long as no `Add` consumes the entry of its
    own trace, every trace that could go has an entry, and a refusal has found none. An `Add` consumes it
    when the traces with entries before it are too small to make room. -/

namespace Spanbarn.Ingest
open List Spanbarn.Model Spanbarn.Schemes

/-! ### Passing over entries -/

/-- No search finds a trace of this id: it is gone, has an error, is the one to keep, or is not one of
    those that `sacrificialOnly` asks for. -/
def Stuck (traces : Dict String BufferedTrace) (sacrificialOnly : Bool) (keep : Option String)
    (id : String) : Prop :=
  ∀ tr, traces.lookup id = some tr →
    tr.hasError = true ∨ keep = some tr.id ∨ sacrificialOnly = true ∧ tr.sacrificial = false

/-- What a search leaves of its queue: the entries passed are stuck, and the next one is the victim's, if
    there is one. -/
inductive Searched (traces : Dict String BufferedTrace) (sacrificialOnly : Bool) (keep : Option String)
    (q : List String) : Option BufferedTrace → List String → Prop
  | found {passed id rest tr} (hq : q = passed ++ id :: rest)
      (hpassed : ∀ x ∈ passed, Stuck traces sacrificialOnly keep x) (hl : traces.lookup id = some tr) :
      Searched traces sacrificialOnly keep q (some tr) rest
  | none {rest} (hall : ∀ x ∈ q, Stuck traces sacrificialOnly keep x) :
      Searched traces sacrificialOnly keep q none rest

section search
variable {tb : TraceBuffer} {sacrificialOnly : Bool} {keep : Option String}

theorem Searched.cons {traces : Dict String BufferedTrace} {id : String} {q rest : List String}
    {found : Option BufferedTrace} (hid : Stuck traces sacrificialOnly keep id)
    (h : Searched traces sacrificialOnly keep q found rest) :
    Searched traces sacrificialOnly keep (id :: q) found rest := by
  cases h with
  | found hq hpassed hl =>
    exact .found (congrArg (id :: ·) hq) (forall_mem_cons.mpr ⟨hid, hpassed⟩) hl
  | none hall => exact .none (forall_mem_cons.mpr ⟨hid, hall⟩)

variable (tb sacrificialOnly keep) in
theorem searched_victimFrom : ∀ q : List String,
    (tb.victimFrom sacrificialOnly keep q).2 ≤ q.length ∧
      Searched tb.traces sacrificialOnly keep q (tb.victimFrom sacrificialOnly keep q).1
        (q.drop (tb.victimFrom sacrificialOnly keep q).2)
  | [] => ⟨le_refl _, .none (forall_mem_nil _)⟩
  | id :: q => by
    obtain ⟨hle, hq⟩ := searched_victimFrom q
    rw [TraceBuffer.victimFrom]
    cases hl : tb.traces.lookup id with
    | none => exact ⟨Nat.succ_le_succ hle, hq.cons fun tr htr => by simp [hl] at htr⟩
    | some tr =>
      dsimp only
      split
      · next hc =>
        refine ⟨Nat.succ_le_succ hle, hq.cons fun x hx => ?_⟩
        obtain rfl : tr = x := by simpa [hl] using hx
        simpa [or_assoc] using hc
      · exact ⟨Nat.succ_le_succ (Nat.zero_le _), .found (nil_append _).symm (forall_mem_nil _) hl⟩

theorem searched_nextVictim {q q' : HeadQueue String} {found : Option BufferedTrace}
    (h : tb.nextVictim q sacrificialOnly keep = (found, q')) :
    Searched tb.traces sacrificialOnly keep q.rest found q'.rest ∧
      (q.head ≤ q.items.length → q'.head ≤ q'.items.length) := by
  obtain ⟨hle, hs⟩ := searched_victimFrom tb sacrificialOnly keep q.rest
  obtain ⟨rfl, rfl⟩ := Prod.mk.inj h
  rw [HeadQueue.rest_compact, HeadQueue.rest_skip]
  exact ⟨hs, fun hq => HeadQueue.head_compact (HeadQueue.head_skip hq hle) _⟩

end search

/-! ### Every trace that could go has an entry -/

/-- Traces are under their ids, and every one without an error, but `keep`, has an entry. -/
structure Queued (keep : Option String) (tb : TraceBuffer) : Prop where
  keys : ∀ {id tr}, tb.traces.lookup id = some tr → tr.id = id
  head : tb.anyQ.head ≤ tb.anyQ.items.length
  entry : ∀ {id tr}, tb.traces.lookup id = some tr → tr.hasError = false → keep ≠ some id →
    id ∈ tb.anyQ.rest

/-- Every buffered trace but `keep` is an error trace. -/
def OnlyErrors (keep : Option String) (tb : TraceBuffer) : Prop :=
  ∀ id tr, tb.traces.lookup id = some tr → keep ≠ some id → tr.hasError = true

variable {tb tb' : TraceBuffer}

variable {keep : Option String}

/-- Nothing else that matters to eviction has changed. -/
theorem Queued.of_eq (h : Queued keep tb) (ht : tb'.traces = tb.traces) (hq : tb'.anyQ = tb.anyQ) :
    Queued keep tb' :=
  ⟨fun hl => h.keys (ht ▸ hl), hq ▸ h.head, fun hl he hne => hq ▸ h.entry (ht ▸ hl) he hne⟩

/-- A trace leaves the buffer. -/
theorem Queued.erase {id : String} (h : Queued keep tb) (ht : tb'.traces = tb.traces.erase id)
    (hq : tb'.anyQ = tb.anyQ) : Queued keep tb' := by
  have hsub : ∀ {k x}, tb'.traces.lookup k = some x → tb.traces.lookup k = some x := fun hx => by
    rw [ht] at hx
    exact (lookup_of_erase hx).2
  exact ⟨fun hl => h.keys (hsub hl), hq ▸ h.head, fun hl he hne => hq ▸ h.entry (hsub hl) he hne⟩

variable {tr : BufferedTrace}

/-- `anyQ` finds a victim: it leaves the buffer, and no entry of another trace that could go is gone. -/
theorem Queued.victim {q : HeadQueue String} (h : Queued keep tb)
    (hv : tb.nextVictim tb.anyQ false keep = (some tr, q)) (ht : tb'.traces = tb.traces.erase tr.id)
    (hq : tb'.anyQ = q) : Queued keep tb' := by
  obtain ⟨hs, hhead⟩ := searched_nextVictim hv
  cases hs with
  | found hrest hpassed hl =>
    refine ⟨fun hx => h.keys (lookup_of_erase (ht ▸ hx)).2, hq ▸ hhead h.head,
      fun {id y} hx hy hne => ?_⟩
    obtain ⟨hother, hold⟩ := lookup_of_erase (ht ▸ hx)
    have hin := h.entry hold hy hne
    rw [hrest, mem_append, mem_cons] at hin
    rw [hq]
    rcases hin with hin | rfl | hin
    · -- an entry passed over was of a trace that may not go
      rcases hpassed id hin y hold with herr | hk | hs
      · simp [hy] at herr
      · exact absurd (h.keys hold ▸ hk) hne
      · exact absurd hs.1 (by simp)
    · exact absurd (h.keys hl).symm hother
    · exact hin

/-- `anyQ` finds none: every trace that had an entry is stuck, and so is every trace. -/
theorem Queued.noVictim {q : HeadQueue String} (h : Queued keep tb)
    (hv : tb.nextVictim tb.anyQ false keep = (none, q)) :
    OnlyErrors keep tb ∧ q.head ≤ q.items.length := by
  obtain ⟨hs, hhead⟩ := searched_nextVictim hv
  cases hs with
  | none hall =>
    refine ⟨fun id tr hl hne => ?_, hhead h.head⟩
    by_contra herr
    rcases hall id (h.entry hl (by simpa using herr) hne) tr hl with h' | hk | hs
    · exact herr h'
    · exact hne (h.keys hl ▸ hk)
    · exact absurd hs.1 (by simp)

/-- What an eviction from `sacrificeQ` leaves alone, and the spans it frees. -/
theorem evictSacrificial_frame (tb : TraceBuffer) (env : Env) (tr : BufferedTrace) :
    let tb' := tb.evictSacrificial env tr
    tb'.anyQ = tb.anyQ ∧ tb'.sacrificeQ = tb.sacrificeQ ∧ tb'.maxSpans = tb.maxSpans ∧
      tb'.refusedTotal = tb.refusedTotal ∧ tb'.spanCount = tb.spanCount - tr.spans.length := by
  by_cases hw : ((tb.remove tr).keepWeight env.lookup tr env.now).1 = 0
  · rw [evictSacrificial_drops hw]
    exact ⟨rfl, rfl, rfl, rfl, rfl⟩
  · rw [evictSacrificial_rescues hw]
    exact ⟨rfl, rfl, rfl, rfl, rfl⟩

/-- One eviction: the entries stay, a trace has left if one was found, and if none was found there is
    nothing but error traces. -/
structure Tried (keep : Option String) (tb : TraceBuffer) (r : Bool × TraceBuffer) : Prop where
  queued : Queued keep r.2
  refused : r.2.refusedTotal = tb.refusedTotal
  fewer : r.1 = true → r.2.traces.keys.length < tb.traces.keys.length
  none : r.1 = false → OnlyErrors keep r.2

theorem keys_erase_lt {d : Dict String BufferedTrace} {id : String} (h : d.lookup id = some tr) :
    (d.erase id).keys.length < d.keys.length := by
  have hmem : id ∈ d.keys := AList.mem_keys.mp (AList.lookup_isSome.mp (by simp [h]))
  rw [AList.keys_erase, length_erase_of_mem hmem]
  have := length_pos_of_mem hmem
  omega

theorem Queued.evictOne (h : Queued keep tb) (env : Env) :
    Tried keep tb (tb.evictOne env keep) := by
  have hfewer : ∀ {id tr}, tb.traces.lookup id = some tr →
      (tb.traces.erase tr.id).keys.length < tb.traces.keys.length := fun hid =>
    keys_erase_lt (h.keys hid ▸ hid)
  unfold TraceBuffer.evictOne
  rcases hs : tb.nextVictim tb.sacrificeQ true keep with ⟨_ | tr, q⟩
  · simp only
    have hq : Queued keep { tb with sacrificeQ := q } := h.of_eq rfl rfl
    rcases ha : TraceBuffer.nextVictim { tb with sacrificeQ := q } tb.anyQ false keep with ⟨_ | tr, q'⟩
    · obtain ⟨honly, hhead⟩ := hq.noVictim ha
      refine ⟨⟨h.keys, hhead, fun hl herr hne => ?_⟩, rfl, nofun, fun _ => honly⟩
      rw [honly _ _ hl hne] at herr
      cases herr
    · obtain ⟨id, hid⟩ := (victim_victimFrom _ (congrArg Prod.fst ha)).buffered
      have he := evicts_kept { tb with sacrificeQ := q, anyQ := q' } env tr
      exact ⟨hq.victim ha he.traces_eq rfl, rfl, fun _ => by rw [he.traces_eq]; exact hfewer hid, nofun⟩
  · obtain ⟨id, hid⟩ := (victim_victimFrom _ (congrArg Prod.fst hs)).buffered
    have he := evicts_sacrificial { tb with sacrificeQ := q } env tr
    obtain ⟨hany, -, -, href, -⟩ := evictSacrificial_frame { tb with sacrificeQ := q } env tr
    exact ⟨h.erase he.traces_eq hany, href,
      fun _ => by rw [he.traces_eq]; exact hfewer hid, nofun⟩

/-- The loop of `ensureRoom` ends for want of a victim, never for want of rounds. -/
theorem Queued.ensureRoom (h : Queued keep tb) (env : Env) :
    Queued keep (tb.ensureRoom env keep).2 ∧
      (tb.ensureRoom env keep).2.refusedTotal = tb.refusedTotal ∧
      ((tb.ensureRoom env keep).1 = false → OnlyErrors keep (tb.ensureRoom env keep).2) := by
  suffices hloop : ∀ fuel t, Queued keep t → t.traces.keys.length < fuel →
      Queued keep (TraceBuffer.ensureRoomFrom env keep fuel t).2 ∧
        (TraceBuffer.ensureRoomFrom env keep fuel t).2.refusedTotal = t.refusedTotal ∧
        ((TraceBuffer.ensureRoomFrom env keep fuel t).1 = false →
          OnlyErrors keep (TraceBuffer.ensureRoomFrom env keep fuel t).2) from
    hloop _ tb h (Nat.lt_succ_self _)
  intro fuel
  induction fuel with
  | zero => intro t _ hlt; exact absurd hlt (Nat.not_lt_zero _)
  | succ fuel ih =>
    intro t ht hlt
    have htried := ht.evictOne env
    rw [TraceBuffer.ensureRoomFrom]
    split
    · simp only
      split
      · next hok =>
        obtain ⟨hq, hr, ho⟩ := ih _ htried.queued (by have := htried.fewer hok; omega)
        exact ⟨hq, hr.trans htried.refused, ho⟩
      · next hno => exact ⟨htried.queued, htried.refused, fun _ => htried.none (by simpa using hno)⟩
    · exact ⟨ht, rfl, by simp⟩

/-! ### The entry of the trace itself -/

/-- The trace goes before a search for `own` comes to its entry: it may go, and it is sacrificial with an
    entry in `sacrificeQ`, or has one in front of `own`'s in `anyQ`. -/
def Ahead (tb : TraceBuffer) (own : String) (tr : BufferedTrace) : Prop :=
  (tr.hasError = false ∧ tr.id ≠ own) ∧
    (tr.sacrificial = true ∧ tr.id ∈ tb.sacrificeQ.rest ∨ tr.id ∈ tb.anyQ.rest.takeWhile (· ≠ own))

instance (tb : TraceBuffer) (own : String) (tr : BufferedTrace) : Decidable (Ahead tb own tr) :=
  inferInstanceAs (Decidable (_ ∧ _))

/-- The spans all those traces hold. -/
def TraceBuffer.freeable (tb : TraceBuffer) (own : String) : ℕ :=
  total (fun tr => if Ahead tb own tr then tr.spans.length else 0) tb.traces

/-- The entry of `own` is there, and what goes before it makes room. -/
structure Roomy (own : String) (tb : TraceBuffer) : Prop where
  keys : ∀ {id tr}, tb.traces.lookup id = some tr → tr.id = id
  entry : own ∈ tb.anyQ.rest
  room : tb.spanCount - tb.freeable own < tb.maxSpans

variable {own : String}

/-- An eviction frees the victim's spans, and what else goes before the entry of `own` still does. -/
theorem Roomy.evict (h : Roomy own tb) (hl : tb.traces.lookup tr.id = some tr)
    (ht : tb'.traces = tb.traces.erase tr.id) (hcount : tb'.spanCount = tb.spanCount - tr.spans.length)
    (hmax : tb'.maxSpans = tb.maxSpans) (hentry : own ∈ tb'.anyQ.rest)
    (hkept : ∀ x, tb.traces.lookup x.id = some x → x.id ≠ tr.id → Ahead tb own x → Ahead tb' own x) :
    Roomy own tb' := by
  have hold {id x} (hx : tb'.traces.lookup id = some x) := lookup_of_erase (ht ▸ hx)
  refine ⟨fun hx => h.keys (hold hx).2, hentry, ?_⟩
  have hvictim : (if Ahead tb own tr then tr.spans.length else 0) ≤ tr.spans.length := by
    split
    · exact le_refl _
    · exact Nat.zero_le _
  have hrest : total (fun x => if Ahead tb own x then x.spans.length else 0) tb'.traces ≤
      tb'.freeable own := by
    refine total_le_total fun id x hx => ?_
    obtain ⟨hne, hx⟩ := hold hx
    obtain rfl := h.keys hx
    split
    · next ha => rw [if_pos (hkept x hx hne ha)]
    · exact Nat.zero_le _
  have hroom := h.room
  rw [TraceBuffer.freeable, ← total_erase hl, ← ht] at hroom
  rw [hcount, hmax]
  omega

/-- A trace that may go, of the kind that is searched for, is not passed over. -/
theorem Ahead.not_stuck {sacrificialOnly : Bool} (h : Ahead tb own tr)
    (hl : tb.traces.lookup tr.id = some tr) (hs : sacrificialOnly = true → tr.sacrificial = true) :
    ¬Stuck tb.traces sacrificialOnly (some own) tr.id := fun hst => by
  rcases hst tr hl with he | he | ⟨he, he'⟩
  · simp [h.1.1] at he
  · exact h.1.2 (Option.some.inj he).symm
  · simp [hs he] at he'

/-- A victim in `sacrificeQ`: the entries of the others are still there. -/
theorem Roomy.sacrifice {q : HeadQueue String} (h : Roomy own tb) (env : Env)
    (hv : tb.nextVictim tb.sacrificeQ true (some own) = (some tr, q)) :
    Roomy own ({ tb with sacrificeQ := q }.evictSacrificial env tr) := by
  obtain ⟨hany, hsac, hmax, -, hcount⟩ := evictSacrificial_frame { tb with sacrificeQ := q } env tr
  have hs := (searched_nextVictim hv).1
  cases hs with
  | found hq hpassed hl =>
    obtain rfl := h.keys hl
    refine h.evict hl (evicts_sacrificial _ env tr).traces_eq hcount hmax
      (by rw [hany]; exact h.entry) fun x hx hne ha => ⟨ha.1, ?_⟩
    rw [hany, hsac]
    refine ha.2.imp_left fun ⟨hsac, hin⟩ => ⟨hsac, ?_⟩
    rw [hq, mem_append, mem_cons] at hin
    rcases hin with hin | hin | hin
    · exact absurd (hpassed _ hin) (ha.not_stuck hx fun _ => hsac)
    · exact absurd hin hne
    · exact hin

/-- The search of `anyQ` ends in front of the entry of `own` if a trace there may go. -/
theorem own_not_passed {passed left : List String} {x : BufferedTrace}
    (hpassed : ∀ y ∈ passed, Stuck tb.traces false (some own) y)
    (hx : x.id ∈ (passed ++ left).takeWhile (· ≠ own)) (hfree : ¬Stuck tb.traces false (some own) x.id) :
    own ∉ passed := by
  intro hin
  obtain ⟨front, back, rfl⟩ := append_of_mem hin
  refine hfree (hpassed _ (mem_append_left _ ?_))
  rw [append_assoc, cons_append, takeWhile_append, takeWhile_cons_of_neg (by simp), append_nil] at hx
  split at hx
  · exact hx
  · exact takeWhile_subset _ hx

/-- A victim in `anyQ`, none being left in `sacrificeQ`: it is found in front of the entry of `own`. -/
theorem Roomy.evictAny {x : BufferedTrace} {found : Option BufferedTrace} {q q' : HeadQueue String}
    (h : Roomy own tb) (env : Env)
    (hnone : ∀ id ∈ tb.sacrificeQ.rest, Stuck tb.traces true (some own) id)
    (hx : tb.traces.lookup x.id = some x) (hahead : Ahead tb own x)
    (hv : TraceBuffer.nextVictim { tb with sacrificeQ := q } tb.anyQ false (some own) = (found, q')) :
    ∃ tr, found = some tr ∧ Roomy own ({ tb with sacrificeQ := q, anyQ := q' }.evictKept env tr) := by
  have hany {y} (hy : tb.traces.lookup y.id = some y) (ha : Ahead tb own y) :
      y.id ∈ tb.anyQ.rest.takeWhile (· ≠ own) :=
    ha.2.resolve_left fun hs => ha.not_stuck hy (fun _ => hs.1) (hnone _ hs.2)
  have hs : Searched tb.traces false (some own) tb.anyQ.rest found q'.rest := (searched_nextVictim hv).1
  have hother : ∀ tr, found = some tr → some own ≠ some tr.id := fun tr hf =>
    (victim_victimFrom _ ((congrArg Prod.fst hv).trans hf)).other
  have hin := hany hx hahead
  cases hs with
  | none hall => exact absurd (hall _ (takeWhile_subset _ hin)) (hahead.not_stuck hx nofun)
  | @found passed id _ tr hq hpassed hl =>
    obtain rfl := h.keys hl
    have hne : tr.id ≠ own := fun he => hother tr rfl (congrArg some he.symm)
    have hnot := own_not_passed hpassed (hq ▸ hin) (hahead.not_stuck hx nofun)
    have hentry := h.entry
    rw [hq, mem_append, mem_cons] at hentry
    refine ⟨tr, rfl, h.evict hl (evicts_kept _ env tr).traces_eq rfl rfl
      ((hentry.resolve_left hnot).resolve_left (Ne.symm hne)) fun y hy hne' ha => ⟨ha.1, .inr ?_⟩⟩
    have hbefore : ∀ z ∈ passed, decide (z ≠ own) = true := fun z hz =>
      decide_eq_true fun he => hnot (he ▸ hz)
    have hin := hany hy ha
    rw [hq, takeWhile_append_of_pos hbefore, takeWhile_cons_of_pos (by simpa using hne), mem_append,
      mem_cons] at hin
    rcases hin with hin | hin | hin
    · exact absurd (hpassed _ hin) (ha.not_stuck hy nofun)
    · exact absurd hin hne'
    · exact hin

/-- STEP: at the cap an eviction finds a trace that goes before the entry of `own`. -/
theorem Roomy.evictOne (h : Roomy own tb) (env : Env) (hcap : tb.maxSpans ≤ tb.spanCount) :
    (tb.evictOne env (some own)).1 = true ∧ Roomy own (tb.evictOne env (some own)).2 := by
  have hroom := h.room
  obtain ⟨x, hx, hahead⟩ : ∃ x, tb.traces.lookup x.id = some x ∧ Ahead tb own x := by
    by_contra hnone
    have hzero : tb.freeable own = 0 := total_eq_zero fun id x hx => by
      obtain rfl := h.keys hx
      exact if_neg fun ha => hnone ⟨x, hx, ha⟩
    omega
  unfold TraceBuffer.evictOne
  rcases hs : tb.nextVictim tb.sacrificeQ true (some own) with ⟨_ | tr, q⟩
  · dsimp only
    have hnone : ∀ id ∈ tb.sacrificeQ.rest, Stuck tb.traces true (some own) id := by
      cases (searched_nextVictim hs).1 with
      | none hall => exact hall
    rcases ha : TraceBuffer.nextVictim { tb with sacrificeQ := q } tb.anyQ false (some own) with
      ⟨found, q'⟩
    obtain ⟨tr, rfl, hr⟩ := h.evictAny env hnone hx hahead ha
    exact ⟨rfl, hr⟩
  · exact ⟨rfl, h.sacrifice env hs⟩

/-- RUN: the entry is there when `ensureRoom` is done. -/
theorem Roomy.ensureRoom (h : Roomy own tb) (env : Env) :
    own ∈ (tb.ensureRoom env (some own)).2.anyQ.rest := by
  suffices hloop : ∀ fuel t, Roomy own t →
      own ∈ (TraceBuffer.ensureRoomFrom env (some own) fuel t).2.anyQ.rest from hloop _ tb h
  intro fuel
  induction fuel with
  | zero => exact fun t ht => ht.entry
  | succ fuel ih =>
    intro t ht
    rw [TraceBuffer.ensureRoomFrom]
    split
    · next hcap =>
      obtain ⟨hok, hr⟩ := ht.evictOne env hcap.2
      dsimp only
      rw [if_pos hok]
      exact ih _ hr
    · exact ht.entry

/-! ### Adding a span -/

variable {rec : SpanRecord}

/-- A span joins a trace: its entry is still there, or it needs none. -/
theorem Queued.append (h : Queued keep tb) (env : Env) (hkeep : ∀ id, keep = some id → id = tr.id)
    (hown : tr.hasError = true ∨ rec.isError = true ∨ tr.id ∈ tb.anyQ.rest) :
    Queued none (tb.append env tr rec) := by
  have hl : ∀ {id x}, (tb.append env tr rec).traces.lookup id = some x →
      id = tr.id ∧ x.id = tr.id ∧ x.hasError = (tr.hasError || rec.isError) ∨
        id ≠ tr.id ∧ tb.traces.lookup id = some x := by
    intro id x hx
    rcases lookup_of_insert hx with ⟨hid, hval⟩ | ⟨hne, hold⟩
    · subst hval
      exact .inl ⟨hid, by simp, by simp⟩
    · exact .inr ⟨hne, hold⟩
  refine ⟨fun hx => ?_, h.head, fun hx herr _ => ?_⟩
  · rcases hl hx with ⟨rfl, hid, -⟩ | ⟨-, hold⟩
    · exact hid
    · exact h.keys hold
  · rcases hl hx with ⟨rfl, -, he⟩ | ⟨hne, hold⟩
    · rw [he, Bool.or_eq_false_iff] at herr
      rcases hown with h' | h' | h'
      · simp [herr.1] at h'
      · simp [herr.2] at h'
      · exact h'
    · exact h.entry hold herr fun hk => hne (hkeep _ hk)

/-- A new trace enters the queue. -/
theorem Queued.newTrace (h : Queued none tb) (env : Env) (rec : SpanRecord) :
    Queued none (tb.newTrace env rec).2 ∧
      (tb.newTrace env rec).1.id ∈ (tb.newTrace env rec).2.anyQ.rest := by
  have hrest : (tb.newTrace env rec).2.anyQ.rest = tb.anyQ.rest ++ [rec.traceID] :=
    HeadQueue.rest_push h.head _
  refine ⟨⟨fun hx => ?_, ?_, fun hx herr hne => ?_⟩, ?_⟩
  · rcases lookup_of_insert hx with ⟨rfl, rfl⟩ | ⟨-, hold⟩
    · rfl
    · exact h.keys hold
  · have := h.head
    simp only [TraceBuffer.newTrace, HeadQueue.push, length_append]
    omega
  · rw [hrest, mem_append]
    rcases lookup_of_insert hx with ⟨rfl, -⟩ | ⟨-, hold⟩
    · exact .inr (mem_singleton.mpr rfl)
    · exact .inl (h.entry hold herr hne)
  · rw [hrest, mem_append]
    exact .inr (mem_singleton.mpr rfl)

/-- The trace that room is made for needs no entry meanwhile. -/
theorem Queued.but (h : Queued none tb) (keep : Option String) : Queued keep tb :=
  ⟨h.keys, h.head, fun hl he _ => h.entry hl he nofun⟩

/-- `Add` leaves the entry of the trace its span belongs to: that is not buffered, has an error, or the
    buffer is below its cap without the traces that go before it. -/
def OwnEntryStays (tb : TraceBuffer) (rec : SpanRecord) : Prop :=
  ∀ tr ∈ tb.traces.lookup rec.traceID, tr.hasError = true ∨ rec.isError = true ∨ tb.maxSpans = 0 ∨
    tb.spanCount - tb.freeable rec.traceID < tb.maxSpans

/-- What an `Add` says about the entries afterwards, and about the buffer when it refuses. -/
structure Admits (tb : TraceBuffer) (env : Env) (rec : SpanRecord) (tb' : TraceBuffer) : Prop where
  queued : OwnEntryStays tb rec → Queued none tb'
  refused : tb'.refusedTotal ≠ tb.refusedTotal → OnlyErrors (some rec.traceID) tb'

/-- A span of a buffered trace. -/
theorem admits_known (h : Queued none tb) (env : Env) (hl : tb.traces.lookup rec.traceID = some tr) :
    Admits tb env rec (tb.add env rec) := by
  have hid := h.keys hl
  have hadd : tb.add env rec = (tb.accept rec).admitSpan env rec (some tr) := by
    simp [TraceBuffer.add, TraceBuffer.route, TraceBuffer.accept, hl]
  have hacc : Queued none (tb.accept rec) := h.of_eq rfl rfl
  obtain ⟨hq, href, hnone⟩ := (hacc.but (some tr.id)).ensureRoom env
  have hown (ho : OwnEntryStays tb rec) : tr.hasError = true ∨ rec.isError = true ∨
      tr.id ∈ ((tb.accept rec).ensureRoom env (some tr.id)).2.anyQ.rest := by
    by_cases herr : tr.hasError = true ∨ rec.isError = true
    · exact herr.imp_right .inl
    · have hentry : tr.id ∈ tb.anyQ.rest :=
        h.entry (hid ▸ hl) (by simpa using fun he => herr (.inl he))
          (Option.some_ne_none _).symm
      refine .inr (.inr ?_)
      rcases ho tr hl with he | he | hcap | hroom
      · exact absurd (.inl he) herr
      · exact absurd (.inr he) herr
      · rw [ensureRoom_of_room (by simp [TraceBuffer.accept, hcap])]
        exact hentry
      · have hr : Roomy tr.id (tb.accept rec) := ⟨h.keys, hentry, hid.symm ▸ hroom⟩
        exact hr.ensureRoom env
  simp only [TraceBuffer.admitSpan, Option.map_some, Option.any_some] at hadd
  split at hadd
  · next hno =>
    simp only [Bool.and_eq_true, Bool.not_eq_true', Bool.or_eq_false_iff] at hno
    rw [hadd]
    refine ⟨fun ho => ⟨hq.keys, hq.head, fun {id x} hx herr _ => ?_⟩, fun _ => ?_⟩
    · by_cases hsame : id = tr.id
      · subst hsame
        rcases hown ho with h' | h' | h'
        · simp [hno.2.2] at h'
        · simp [hno.2.1] at h'
        · exact h'
      · exact hq.entry hx herr fun hk => hsame (Option.some.inj hk).symm
    · intro id x hx hne
      exact hnone hno.1 id x hx (by rw [hid]; exact hne)
  · rw [hadd]
    refine ⟨fun ho => hq.append env (fun id hk => (Option.some.inj hk).symm) (hown ho), fun hne => ?_⟩
    exact absurd href hne

/-- A span of a trace that is not buffered. -/
theorem admits_unknown (h : Queued none tb) (env : Env) (hl : tb.traces.lookup rec.traceID = none) :
    Admits tb env rec (tb.add env rec) := by
  cases hf : (tb.accept rec).decided.follow (tb.accept rec).ledger rec with
  | some r =>
    have hadd : tb.add env rec = (tb.accept rec).followed r := by
      simp only [TraceBuffer.add, TraceBuffer.route, hf]
      simp [TraceBuffer.accept, hl]
    rw [hadd]
    exact ⟨fun _ => h.of_eq rfl rfl, fun hne => absurd rfl hne⟩
  | none =>
    have hadd : tb.add env rec = (tb.accept rec).admitSpan env rec none := by
      simp only [TraceBuffer.add, TraceBuffer.route, hf]
      simp [TraceBuffer.accept, hl]
    have hacc : Queued none (tb.accept rec) := h.of_eq rfl rfl
    obtain ⟨hq, href, hnone⟩ := hacc.ensureRoom env
    rw [hadd]
    simp only [TraceBuffer.admitSpan, Option.map_none, Option.any_none]
    split
    · next hno =>
      simp only [Bool.and_eq_true, Bool.not_eq_true'] at hno
      exact ⟨fun _ => hq.of_eq rfl rfl, fun _ id tr hx _ => hnone hno.1 id tr hx (by simp)⟩
    · obtain ⟨hn, hin⟩ := hq.newTrace env rec
      exact ⟨fun _ => hn.append env (by simp) (.inr (.inr hin)), fun hne => absurd href hne⟩

theorem admits_add (h : Queued none tb) (env : Env) (rec : SpanRecord) :
    Admits tb env rec (tb.add env rec) := by
  cases hl : tb.traces.lookup rec.traceID with
  | none => exact admits_unknown h env hl
  | some tr => exact admits_known h env hl

/-! ### Flushes -/

/-- The pieces of a flush after its first half leave traces and queue alone. -/
theorem followAll_frame : ∀ (recs : List SpanRecord) (tb : TraceBuffer),
    (tb.followAll recs).traces = tb.traces ∧ (tb.followAll recs).anyQ = tb.anyQ
  | [], _ => ⟨rfl, rfl⟩
  | rec :: recs, tb => by
    rw [TraceBuffer.followAll]
    split
    · exact followAll_frame recs _
    · exact followAll_frame recs tb

theorem settleAll_frame (now : ℤ) : ∀ (ws : List (String × ℕ)) (tb : TraceBuffer),
    (ws.foldl (TraceBuffer.settleOne now) tb).traces = tb.traces ∧
      (ws.foldl (TraceBuffer.settleOne now) tb).anyQ = tb.anyQ
  | [], _ => ⟨rfl, rfl⟩
  | w :: ws, tb => by
    obtain ⟨ht, hq⟩ := settleAll_frame now ws (tb.settleOne now w)
    obtain ⟨ht', hq'⟩ := followAll_frame (tb.decided.put w.1 w.2 false now).1
      { tb with decided := (tb.decided.put w.1 w.2 false now).2 }
    exact ⟨ht.trans ht', hq.trans hq'⟩

theorem Queued.advances {f f' : Flight} (h : Queued none tb) (ha : Advances tb f tb' f') :
    Queued none tb' := by
  cases ha with
  | decide lookup =>
    obtain ⟨_, _, _, hsame⟩ := decideTrace_frame tb lookup _ _
    rw [hsame]
    exact h.of_eq rfl rfl
  | carriers | finish => exact h.of_eq rfl rfl
  | settle =>
    obtain ⟨ht, hq⟩ := settleAll_frame _ _ tb
    exact h.of_eq ht hq
  | deliver ok => cases ok <;> exact h.of_eq rfl rfl

/-- The first half takes traces out and prunes the entries of those that are gone. -/
theorem Queued.start (h : Queued none tb) (now : ℤ) (all : Bool) :
    Queued none (tb.start now all).1 := by
  have hout : ∀ (trs : List BufferedTrace) (t : TraceBuffer), Queued none t →
      Queued none (trs.foldl (TraceBuffer.takeOut now) t) := by
    intro trs
    induction trs with
    | nil => exact fun t ht => ht
    | cons tr trs ih => exact fun t ht => ih _ (ht.erase rfl rfl)
  have hq := hout (tb.toDecide now all) tb h
  refine ⟨hq.keys, Nat.zero_le _, fun hl herr hne => ?_⟩
  refine mem_filter.mpr ⟨hq.entry hl herr hne, ?_⟩
  exact Option.isSome_iff_exists.mpr ⟨_, hl⟩

/-! ### Refusals -/

/-- No `Add` of the run consumes the entry of its own trace. -/
def EntriesStay (s : System) : Action → Prop
  | .add _ rec => OwnEntryStays s.tb rec
  | _ => True

instance (tb : TraceBuffer) (rec : SpanRecord) : Decidable (OwnEntryStays tb rec) := by
  unfold OwnEntryStays; infer_instance

instance (s : System) : ∀ a, Decidable (EntriesStay s a)
  | .add _ rec => inferInstanceAs (Decidable (OwnEntryStays s.tb rec))
  | .start .. | .advance .. | .sweep _ => inferInstanceAs (Decidable True)

theorem queued_step {s s' : System} {a : Action} (h : Queued none s.tb) (hc : EntriesStay s a)
    (hs : step s a = some s') : Queued none s'.tb := by
  cases Step.of_step hs with
  | add env rec => exact (admits_add h env rec).queued hc
  | start now all => exact h.start now all
  | advance hf ha => exact h.advances ha
  | sweep => exact h.of_eq rfl rfl

/-- CORRECT in every run in which no `Add` consumes the entry of its own trace: when `Add` refuses a
    span, every trace buffered then is an error trace, the span's own trace apart. -/
theorem refused_among_errors (cfg : Config) (as : List Action) (s : System)
    (hrun : run step ⟨newTraceBuffer cfg, []⟩ as = some s)
    (hentries : Meets step EntriesStay ⟨newTraceBuffer cfg, []⟩ as) (env : Env) (rec : SpanRecord)
    (hrefused : (s.tb.add env rec).refusedTotal ≠ s.tb.refusedTotal) (id : String) (tr : BufferedTrace)
    (hl : (s.tb.add env rec).traces.lookup id = some tr) (hother : id ≠ rec.traceID) :
    tr.hasError = true := by
  have hstart : Queued none (newTraceBuffer cfg) :=
    ⟨fun h => by simp [newTraceBuffer] at h, le_refl _, fun h => by simp [newTraceBuffer] at h⟩
  have hq : Queued none s.tb := inv_run_meets (I := fun s : System => Queued none s.tb)
    (fun _ _ _ h hc hs => queued_step h hc hs) hstart hentries hrun
  exact (admits_add hq env rec).refused hrefused id tr hl fun h => hother (Option.some.inj h).symm

/-- Two spans of one trace at a cap of one: the second is refused, and its trace loses its entry. -/
def ownEntryConsumed : List Action := [.add (keepAll 0) (span "t" "1"), .add (keepAll 1) (span "t" "2")]

/-- A span of another trace is refused, although the buffered trace has no error and could go. -/
theorem refused_beside_clean_trace :
    ∃ s, run step ⟨newTraceBuffer tight, []⟩ ownEntryConsumed = some s ∧
      (s.tb.add (keepAll 2) (span "u" "1")).refusedTotal ≠ s.tb.refusedTotal ∧
      ∃ tr, (s.tb.add (keepAll 2) (span "u" "1")).traces.lookup "t" = some tr ∧
        tr.spans = [span "t" "1"] ∧ tr.hasError = false :=
  ⟨_, rfl, by decide, _, rfl, rfl, rfl⟩

/-- An error trace fills the buffer past its cap. -/
def fullOfErrors : List Action :=
  [.add (keepAll 0) { span "e" "1" with status := "error" },
    .add (keepAll 1) { span "e" "2" with status := "error" }]

theorem refused_among_errors_full :
    ∃ s, run step ⟨newTraceBuffer tight, []⟩ fullOfErrors = some s ∧
      (s.tb.add (keepAll 2) (span "u" "1")).refusedTotal ≠ s.tb.refusedTotal ∧
      ∃ tr, (s.tb.add (keepAll 2) (span "u" "1")).traces.lookup "e" = some tr ∧ tr.hasError = true :=
  ⟨_, rfl, by decide, _, rfl, refused_among_errors tight fullOfErrors _ rfl (by decide) (keepAll 2)
    (span "u" "1") (by decide) "e" _ rfl (by decide)⟩

end Spanbarn.Ingest
