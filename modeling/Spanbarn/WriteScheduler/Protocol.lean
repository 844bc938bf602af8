import Mathlib.Data.List.Basic
import Mathlib.Data.List.Count
import Mathlib.Data.List.Nodup
import Spanbarn.WriteScheduler.Scheduler

/-! What the write scheduler promises, over every interleaving of its calls with `Run`.

    Three invariants carry it. `Accounted` counts: every job sent is queued or was started, and the
    jobs started are the jobs ended plus the one running. `Answered` follows a result from the end of
    its job through the result channel into the call. `Drained` says what is left of the jobs sent
    before `Run` entered `drain`, phase by phase. -/

namespace Spanbarn.WriteScheduler
open List Spanbarn.Schemes

variable {Err : Type}

/-! ### Reading the log -/

@[simp] def Event.sent? : Event Err → Option ℕ
  | .sent i => some i
  | _ => none

@[simp] def Event.started? : Event Err → Option ℕ
  | .started i => some i
  | _ => none

@[simp] def Event.ended? : Event Err → Option (ℕ × Result Err)
  | .ended i res => some (i, res)
  | _ => none

/-- The calls whose send completed, the jobs started, the jobs ended with their results. -/
def sends (log : List (Event Err)) : List ℕ := log.filterMap Event.sent?

def starts (log : List (Event Err)) : List ℕ := log.filterMap Event.started?

def ends (log : List (Event Err)) : List (ℕ × Result Err) := log.filterMap Event.ended?

@[simp] def Event.isDraining : Event Err → Bool
  | .draining => true
  | _ => false

@[simp] def Event.isClosed : Event Err → Bool
  | .closed => true
  | _ => false

/-- The log up to the first event of a kind. -/
def before (kind : Event Err → Bool) (log : List (Event Err)) : List (Event Err) :=
  log.takeWhile fun e => !kind e

@[simp] theorem sends_snoc (l : List (Event Err)) (e : Event Err) :
    sends (l ++ [e]) = sends l ++ e.sent?.toList := by
  rw [sends, filterMap_append]
  cases e <;> rfl

@[simp] theorem starts_snoc (l : List (Event Err)) (e : Event Err) :
    starts (l ++ [e]) = starts l ++ e.started?.toList := by
  rw [starts, filterMap_append]
  cases e <;> rfl

@[simp] theorem ends_snoc (l : List (Event Err)) (e : Event Err) :
    ends (l ++ [e]) = ends l ++ e.ended?.toList := by
  rw [ends, filterMap_append]
  cases e <;> rfl

variable {l : List (Event Err)} {s s' : System Err} {jobs : Jobs} {p : Priority}

/-- What is before the first event of a kind no longer changes once there is one. -/
theorem before_append_of_any {kind : Event Err → Bool} (h : l.any kind = true)
    (l' : List (Event Err)) : before kind (l ++ l') = before kind l := by
  induction l with
  | nil => simp at h
  | cons e l ih =>
    cases he : kind e with
    | true => simp [before, he]
    | false =>
      have : l.any kind = true := by simpa [he] using h
      simpa [before, he] using ih this

theorem before_append_of_not_any {kind : Event Err → Bool} (h : l.any kind = false)
    (l' : List (Event Err)) : before kind (l ++ l') = l ++ before kind l' := by
  induction l with
  | nil => rfl
  | cons e l ih =>
    have he : kind e = false := by
      have := any_eq_false.mp h e mem_cons_self
      simpa using this
    have hl : l.any kind = false := by simpa [he] using h
    simpa [before, he] using ih hl

/-! ### Every job is accounted for -/

/-- The job whose function is running. -/
def Runner.job? : Runner Err → Option ℕ
  | .running _ i => some i
  | _ => none

/-- Sends are unique and past their call's send; what was sent is queued or started, in the queue of
    its priority; what was started has ended or is running. -/
structure Accounted (jobs : Jobs) (s : System Err) : Prop where
  once : ∀ i, (sends s.log).count i ≤ 1
  past : ∀ i ∈ sends s.log, s.caller i ≠ .outside ∧ s.caller i ≠ .sending
  placed : ∀ i, (starts s.log).count i + s.highPri.count i + s.lowPri.count i =
    (sends s.log).count i
  high : ∀ i ∈ s.highPri, jobs.priority i = .high
  ended : starts s.log = (ends s.log).map Prod.fst ++ s.runner.job?.toList

theorem accounted_start (jobs : Jobs) : Accounted jobs (start : System Err) where
  once := fun _ => by simp [start, sends]
  past := fun _ h => by simp [start, sends] at h
  placed := fun _ => by simp [start, sends, starts]
  high := fun _ h => by simp [start] at h
  ended := rfl

/-- A move of a call away from a place before the send, or of a call that was past it. -/
theorem past_goto {i : ℕ} {c : Caller Err}
    (h : ∀ k ∈ sends s.log, s.caller k ≠ .outside ∧ s.caller k ≠ .sending)
    (hc : i ∈ sends s.log → c ≠ .outside ∧ c ≠ .sending) :
    ∀ k ∈ sends s.log, (s.goto i c).caller k ≠ .outside ∧ (s.goto i c).caller k ≠ .sending := by
  intro k hk
  simp only [System.goto]
  by_cases hki : k = i
  · subst hki
    rw [Function.update_self]
    exact hc hk
  · rw [Function.update_of_ne hki]
    exact h k hk

@[simp] theorem enqueue_log (s : System Err) (p : Priority) (i : ℕ) :
    (s.enqueue p i).log = s.log ++ [.sent i] := by cases p <;> rfl

@[simp] theorem enqueue_caller (s : System Err) (p : Priority) (i : ℕ) :
    (s.enqueue p i).caller = s.caller := by cases p <;> rfl

@[simp] theorem enqueue_runner (s : System Err) (p : Priority) (i : ℕ) :
    (s.enqueue p i).runner = s.runner := by cases p <;> rfl

@[simp] theorem begin_log (jobs : Jobs) (s : System Err) (p : Priority) (rest : List ℕ) (l : Loop)
    (i : ℕ) : (System.begin jobs (s.dequeued p rest) l i).log = s.log ++ [.started i] := by
  cases p <;> rfl

@[simp] theorem begin_caller (jobs : Jobs) (s : System Err) (p : Priority) (rest : List ℕ)
    (l : Loop) (i : ℕ) : (System.begin jobs (s.dequeued p rest) l i).caller = s.caller := by
  cases p <;> rfl

@[simp] theorem begin_runner (jobs : Jobs) (s : System Err) (p : Priority) (rest : List ℕ)
    (l : Loop) (i : ℕ) : (System.begin jobs (s.dequeued p rest) l i).runner = .running l i := rfl

theorem accounted_send {i : ℕ} (h : Accounted jobs s) (hi : s.caller i = .sending) :
    Accounted jobs ((s.enqueue (jobs.priority i) i).goto i .waiting) := by
  have hnew : i ∉ sends s.log := fun hm => (h.past i hm).2 hi
  have hzero : (sends s.log).count i = 0 := count_eq_zero.mpr hnew
  refine ⟨fun k => ?_, fun k hk => ?_, fun k => ?_, fun k hk => ?_, ?_⟩
  · have := h.once k
    by_cases hki : i = k
    · subst hki; simp [System.goto, hzero]
    · simpa [System.goto, hki] using this
  · by_cases hki : k = i
    · subst hki; simp [System.goto]
    · simp only [System.goto, enqueue_caller, Function.update_of_ne hki]
      refine h.past k ?_
      simpa [System.goto, hki] using hk
  · have := h.placed k
    cases hp : jobs.priority i <;> simp [System.goto, System.enqueue] <;> omega
  · cases hp : jobs.priority i <;> rw [hp] at hk <;> simp only [System.goto, System.enqueue] at hk
    · exact h.high k hk
    · rcases mem_append.mp hk with hk | hk
      · exact h.high k hk
      · rw [mem_singleton.mp hk]; exact hp
  · simpa [System.goto] using h.ended

theorem accounted_take {loop : Loop} {i : ℕ} {rest : List ℕ} (h : Accounted jobs s)
    (ht : Takes s.runner p loop) (hq : s.queue p = i :: rest) :
    Accounted jobs (System.begin jobs (s.dequeued p rest) loop i) := by
  have hjob : s.runner.job? = none := by
    generalize s.runner = r at ht
    cases ht <;> rfl
  refine ⟨by simpa using h.once, by simpa using h.past, fun k => ?_, fun k hk => ?_, ?_⟩
  · have hpl := h.placed k
    cases p <;> simp only [System.queue] at hq <;> rw [hq] at hpl <;>
      simp only [sends_snoc, starts_snoc, Event.sent?, Event.started?,
        Option.toList_none, Option.toList_some, count_append, count_cons, count_nil,
        System.begin, System.dequeued] at hpl ⊢ <;> omega
  · cases p with
    | high =>
      refine h.high k ?_
      have : s.highPri = i :: rest := hq
      rw [this]
      exact mem_cons_of_mem _ hk
    | low => exact h.high k hk
  · have hend := h.ended
    rw [hjob] at hend
    simp [hend, Runner.job?]

/-- An event that sends and starts nothing, with the runner changed accordingly. -/
theorem accounted_event {e : Event Err} {r : Runner Err} {stopped : Bool} {label : String}
    (h : Accounted jobs s) (hs : e.sent? = none) (hst : e.started? = none)
    (he : s.runner.job?.toList = e.ended?.toList.map Prod.fst ++ r.job?.toList) :
    Accounted jobs { s with
      runner := r, stopped := stopped, curLabel := label, log := s.log ++ [e] } := by
  have hsends : sends (s.log ++ [e]) = sends s.log := by
    rw [sends_snoc, hs, Option.toList_none, append_nil]
  have hstarts : starts (s.log ++ [e]) = starts s.log := by
    rw [starts_snoc, hst, Option.toList_none, append_nil]
  refine ⟨?_, ?_, ?_, h.high, ?_⟩
  · simpa only [hsends] using h.once
  · simpa only [hsends] using h.past
  · simpa only [hsends, hstarts] using h.placed
  · rw [hstarts, ends_snoc, h.ended, he, map_append, append_assoc]

theorem accounted_step (h : Accounted jobs s) (hs : Step jobs s s') : Accounted jobs s' := by
  cases hs with
  | cancel f b => exact ⟨h.once, h.past, h.placed, h.high, h.ended⟩
  | call i c hc =>
    refine ⟨h.once, past_goto h.past fun hi => ?_, h.placed, h.high, h.ended⟩
    have hp := h.past i hi
    generalize s.caller i = c₀ at hp hc
    cases hc <;> simp at hp ⊢
  | send i hi => exact accounted_send h hi
  | receive i res hi hr =>
    exact ⟨h.once, past_goto h.past fun _ => ⟨nofun, nofun⟩, h.placed, h.high, h.ended⟩
  | idle r hr =>
    refine ⟨h.once, h.past, h.placed, h.high, ?_⟩
    have hend := h.ended
    generalize s.runner = r₀ at hr hend
    cases hr <;> exact hend
  | take p loop i rest ht hq => exact accounted_take h ht hq
  | drain hr | finish loop i res hr | close hr => exact accounted_event h rfl rfl (by rw [hr]; rfl)
  | report loop i res hr hc =>
    have hend := h.ended
    rw [hr] at hend
    refine ⟨h.once, h.past, h.placed, h.high, ?_⟩
    cases loop <;> exact hend

theorem Accounted.starts_nodup (h : Accounted jobs s) : (starts s.log).Nodup := by
  refine nodup_iff_count_le_one.mpr fun i => ?_
  have h1 := h.once i
  have h2 := h.placed i
  omega

theorem Accounted.ends_nodup (h : Accounted jobs s) : ((ends s.log).map Prod.fst).Nodup := by
  have := h.starts_nodup
  rw [h.ended] at this
  exact (nodup_append.mp this).1

/-- A job has one result. -/
theorem Accounted.result_unique (h : Accounted jobs s) {i : ℕ} {r r' : Result Err}
    (h1 : (i, r) ∈ ends s.log) (h2 : (i, r') ∈ ends s.log) : r = r' := by
  have := inj_on_of_nodup_map h.ends_nodup h1 h2 rfl
  exact (Prod.mk.inj this).2

/-- A job that was sent and is in neither queue was started. -/
theorem Accounted.started_of_unqueued (h : Accounted jobs s) {i : ℕ} (hs : i ∈ sends s.log)
    (hh : i ∉ s.highPri) (hl : i ∉ s.lowPri) : i ∈ starts s.log := by
  have h1 := h.placed i
  have h2 := count_pos_iff.mpr hs
  rw [count_eq_zero.mpr hh, count_eq_zero.mpr hl] at h1
  exact count_pos_iff.mp (by omega)

/-- While no job is running, what was started has ended. -/
theorem Accounted.ended_of_started (h : Accounted jobs s) {i : ℕ} (hr : s.runner.job? = none)
    (hi : i ∈ starts s.log) : ∃ r, (i, r) ∈ ends s.log := by
  rw [h.ended, hr] at hi
  simpa using hi

/-! ### A result reaches its own call -/

/-- The result `execute` has yet to put into its channel. -/
def Runner.unreported : Runner Err → Option (ℕ × Result Err)
  | .reporting _ i res => some (i, res)
  | _ => none

/-- Results in a channel, returned by a call or yet to be reported are those of the job's own run; a
    reported one is in its channel until its call takes it; `stopped` is closed when `Run` is over; a
    call that returned `ErrStopped` has not sent its job, or `Run` was over before the job's turn. -/
structure Answered (s : System Err) : Prop where
  channel : ∀ i res, s.resultCh i = some res → (i, res) ∈ ends s.log
  own : ∀ i res, s.caller i = .returned (.own res) → (i, res) ∈ ends s.log
  report : ∀ x, s.runner.unreported = some x → x ∈ ends s.log
  kept : ∀ i res, (i, res) ∈ ends s.log → s.runner.unreported = some (i, res) ∨
    s.resultCh i = some res ∨ ∃ how, s.caller i = .returned how ∧ how ≠ .errStopped
  closed : s.stopped = true ↔ s.runner = .returned
  looking : ∀ i, s.caller i = .looking → s.runner = .returned
  refused : ∀ i, s.caller i = .returned .errStopped →
    i ∉ starts s.log ∧ (i ∉ sends s.log ∨ s.runner = .returned)

theorem answered_start : Answered (start : System Err) where
  channel := fun _ _ h => by simp [start] at h
  own := fun _ _ h => by simp [start] at h
  report := fun _ h => by simp [start, Runner.unreported] at h
  kept := fun _ _ h => by simp [start, ends] at h
  closed := by simp [start]
  looking := fun _ h => by simp [start] at h
  refused := fun _ h => by simp [start] at h

/-- A job still before its send has not been started. -/
theorem Accounted.not_started (h : Accounted jobs s) {i : ℕ} (hi : i ∉ sends s.log) :
    i ∉ starts s.log := by
  have := h.placed i
  rw [count_eq_zero.mpr hi] at this
  exact count_eq_zero.mp (by omega)

theorem Accounted.sent_of_queued (h : Accounted jobs s) {i : ℕ} (hi : i ∈ s.queue p) :
    i ∈ sends s.log := by
  have hpl := h.placed i
  have hpos := count_pos_iff.mpr hi
  refine count_pos_iff.mp ?_
  cases p <;> simp only [System.queue] at hpos <;> omega

/-- What a call finds when it returns `ErrStopped` from a look at `stopped` or at its channel. -/
theorem refused_call (ha : Accounted jobs s) (h : Answered s) {i : ℕ}
    (hc : CallStep s i (s.caller i) (.returned .errStopped)) :
    i ∉ starts s.log ∧ (i ∉ sends s.log ∨ s.runner = .returned) := by
  have unsent : s.caller i = .outside ∨ s.caller i = .sending → i ∉ sends s.log := by
    rintro (ho | ho) hm
    · exact (ha.past i hm).1 ho
    · exact (ha.past i hm).2 ho
  generalize hcall : s.caller i = c at hc
  cases hc with
  | refuse _ => exact ⟨ha.not_started (unsent (.inl hcall)), .inl (unsent (.inl hcall))⟩
  | stopSending _ => exact ⟨ha.not_started (unsent (.inr hcall)), .inl (unsent (.inr hcall))⟩
  | stopLooking hr =>
    -- `Run` is over, so a started job has ended, and its result would be in the channel
    have hover := h.looking i hcall
    refine ⟨fun hst => ?_, .inr hover⟩
    obtain ⟨res, hres⟩ := ha.ended_of_started (by rw [hover]; rfl) hst
    rcases h.kept i res hres with hk | hk | ⟨how, hk, -⟩
    · rw [hover] at hk; simp [Runner.unreported] at hk
    · rw [hr] at hk; simp at hk
    · rw [hcall] at hk; simp at hk

theorem answered_call {i : ℕ} {c : Caller Err} (ha : Accounted jobs s) (h : Answered s)
    (hc : CallStep s i (s.caller i) c) : Answered (s.goto i c) := by
  have hsame : ∀ {k}, k ≠ i → (s.goto i c).caller k = s.caller k := fun hk =>
    Function.update_of_ne hk ..
  have hself : (s.goto i c).caller i = c := Function.update_self ..
  refine ⟨h.channel, fun k res hk => ?_, h.report, fun k res hk => ?_, h.closed, fun k hk => ?_,
    fun k hk => ?_⟩
  · by_cases hki : k = i
    · subst hki
      rw [hself] at hk
      subst hk
      generalize s.caller k = c at hc
      cases hc
    · exact h.own k res (hsame hki ▸ hk)
  · rcases h.kept k res hk with h1 | h1 | ⟨how, h1, h2⟩
    · exact .inl h1
    · exact .inr (.inl h1)
    · by_cases hki : k = i
      · subst hki
        rw [h1] at hc
        cases hc
      · exact .inr (.inr ⟨how, (hsame hki).trans h1, h2⟩)
  · by_cases hki : k = i
    · subst hki
      rw [hself] at hk
      subst hk
      generalize s.caller k = c at hc
      cases hc with
      | stopWaiting hs => exact h.closed.mp hs
    · exact h.looking k (hsame hki ▸ hk)
  · by_cases hki : k = i
    · subst hki
      rw [hself] at hk
      subst hk
      exact refused_call ha h hc
    · exact h.refused k (hsame hki ▸ hk)

theorem answered_send {i : ℕ} (h : Answered s) (hi : s.caller i = .sending) :
    Answered ((s.enqueue p i).goto i .waiting) := by
  have hends : ends (s.log ++ [.sent i]) = ends s.log := by simp
  have hres : (s.enqueue p i).resultCh = s.resultCh := by cases p <;> rfl
  have hstop : (s.enqueue p i).stopped = s.stopped := by cases p <;> rfl
  have hcall : ∀ {k c}, ((s.enqueue p i).goto i .waiting).caller k = c → c ≠ .waiting →
      s.caller k = c ∧ k ≠ i := by
    intro k c hk hne
    by_cases hki : k = i
    · subst hki
      simp only [System.goto, Function.update_self] at hk
      exact absurd hk.symm hne
    · simp only [System.goto, enqueue_caller, Function.update_of_ne hki] at hk
      exact ⟨hk, hki⟩
  refine ⟨?_, fun k res hk => ?_, ?_, fun k res hk => ?_, ?_, fun k hk => ?_, fun k hk => ?_⟩
  · simpa only [System.goto, enqueue_log, hends, hres] using h.channel
  · simpa only [System.goto, enqueue_log, hends] using h.own k res (hcall hk nofun).1
  · simpa only [System.goto, enqueue_log, enqueue_runner, hends] using h.report
  · simp only [System.goto, enqueue_log, enqueue_runner, enqueue_caller, hends, hres] at hk ⊢
    rcases h.kept k res hk with h1 | h1 | ⟨how, h1, h2⟩
    · exact .inl h1
    · exact .inr (.inl h1)
    · have hki : k ≠ i := by rintro rfl; rw [hi] at h1; simp at h1
      exact .inr (.inr ⟨how, by rw [Function.update_of_ne hki]; exact h1, h2⟩)
  · simpa only [System.goto, enqueue_runner, hstop] using h.closed
  · simpa only [System.goto, enqueue_runner] using h.looking k (hcall hk nofun).1
  · obtain ⟨hk, hki⟩ := hcall hk nofun
    simpa [System.goto, hki] using h.refused k hk

theorem answered_receive {i : ℕ} {res : Result Err} (h : Answered s)
    (hi : s.caller i = .waiting ∨ s.caller i = .looking) (hr : s.resultCh i = some res) :
    Answered { s.goto i (.returned (.own res)) with
      resultCh := Function.update s.resultCh i none } := by
  have hne : ∀ {k how}, s.caller k = .returned how → k ≠ i := by
    rintro k how hk rfl
    rcases hi with hi | hi <;> rw [hi] at hk <;> simp at hk
  refine ⟨fun k r hk => ?_, fun k r hk => ?_, h.report, fun k r hk => ?_, h.closed, fun k hk => ?_,
    fun k hk => ?_⟩ <;> simp only [System.goto] at hk ⊢
  · by_cases hki : k = i
    · subst hki; simp at hk
    · rw [Function.update_of_ne hki] at hk; exact h.channel k r hk
  · by_cases hki : k = i
    · subst hki
      rw [Function.update_self] at hk
      obtain rfl : res = r := by simpa using hk
      exact h.channel k res hr
    · rw [Function.update_of_ne hki] at hk; exact h.own k r hk
  · rcases h.kept k r hk with h1 | h1 | ⟨how, h1, h2⟩
    · exact .inl h1
    · by_cases hki : k = i
      · subst hki
        exact .inr (.inr ⟨.own res, Function.update_self .., nofun⟩)
      · rw [Function.update_of_ne hki]; exact .inr (.inl h1)
    · rw [Function.update_of_ne (hne h1)]
      exact .inr (.inr ⟨how, by rw [Function.update_of_ne (hne h1)]; exact h1, h2⟩)
  · by_cases hki : k = i
    · subst hki; rw [Function.update_self] at hk; simp at hk
    · rw [Function.update_of_ne hki] at hk; exact h.looking k hk
  · by_cases hki : k = i
    · subst hki; rw [Function.update_self] at hk; simp at hk
    · rw [Function.update_of_ne hki] at hk; exact h.refused k hk

/-- A move of `Run` among phases that hold no result, neither of which is its last. -/
theorem answered_runner {r : Runner Err} (h : Answered s) (h1 : s.runner.unreported = none)
    (h2 : r.unreported = none) (h3 : s.runner ≠ .returned) (h4 : r ≠ .returned) :
    Answered { s with runner := r } := by
  refine ⟨h.channel, h.own, fun x hx => ?_, fun k res hk => ?_, ?_, fun k hk => ?_, fun k hk => ?_⟩
  · rw [h2] at hx; simp at hx
  · rcases h.kept k res hk with hu | hrest
    · rw [h1] at hu; simp at hu
    · exact .inr hrest
  · have := h.closed
    simp only [h3, h4, iff_false] at this ⊢
    exact this
  · exact absurd (h.looking k hk) h3
  · exact ⟨(h.refused k hk).1, .inl ((h.refused k hk).2.resolve_right h3)⟩

theorem answered_take {loop : Loop} {i : ℕ} {rest : List ℕ} (ha : Accounted jobs s) (h : Answered s)
    (ht : Takes s.runner p loop) (hq : s.queue p = i :: rest) :
    Answered (System.begin jobs (s.dequeued p rest) loop i) := by
  have hrun : s.runner.unreported = none ∧ s.runner ≠ .returned := by
    generalize s.runner = r at ht
    cases ht <;> exact ⟨rfl, nofun⟩
  have hsent : i ∈ sends s.log := ha.sent_of_queued (p := p) (by rw [hq]; exact mem_cons_self)
  have hb := answered_runner (r := .running loop i) h hrun.1 rfl hrun.2 nofun
  have hres : (s.dequeued p rest).resultCh = s.resultCh := by cases p <;> rfl
  have hstop : (s.dequeued p rest).stopped = s.stopped := by cases p <;> rfl
  have hcall : (s.dequeued p rest).caller = s.caller := by cases p <;> rfl
  have hlog : (s.dequeued p rest).log = s.log := by cases p <;> rfl
  refine ⟨?_, ?_, nofun, ?_, ?_, ?_, fun k hk => ?_⟩
  · simpa [System.begin, hres, hlog] using hb.channel
  · simpa [System.begin, hcall, hlog] using hb.own
  · simpa [System.begin, hres, hcall, hlog] using hb.kept
  · simpa [System.begin, hstop] using hb.closed
  · simpa [System.begin, hcall] using hb.looking
  · have hk' : s.caller k = .returned .errStopped := by simpa [System.begin, hcall] using hk
    have hr := h.refused k hk'
    have hns : k ∉ sends s.log := hr.2.resolve_right hrun.2
    have hki : k ≠ i := by rintro rfl; exact hns hsent
    simp [System.begin, hlog, hr.1, hns, hki]

theorem answered_step (ha : Accounted jobs s) (h : Answered s) (hs : Step jobs s s') :
    Answered s' := by
  cases hs with
  | cancel f b => exact ⟨h.channel, h.own, h.report, h.kept, h.closed, h.looking, h.refused⟩
  | call i c hc => exact answered_call ha h hc
  | send i hi => exact answered_send h hi
  | receive i res hi hr => exact answered_receive h hi hr
  | idle r hr =>
    have hrun : s.runner.unreported = none ∧ r.unreported = none ∧ s.runner ≠ .returned ∧
        r ≠ .returned := by
      generalize s.runner = r₀ at hr
      cases hr <;> exact ⟨rfl, rfl, nofun, nofun⟩
    exact answered_runner h hrun.1 hrun.2.1 hrun.2.2.1 hrun.2.2.2
  | take p loop i rest ht hq => exact answered_take ha h ht hq
  | drain hr =>
    have hb := answered_runner (r := .drainHigh) h (by rw [hr]; rfl) rfl (by rw [hr]; nofun) nofun
    exact ⟨by simpa using hb.channel, by simpa using hb.own, by simpa using hb.report,
      by simpa using hb.kept, hb.closed, hb.looking, by simpa using hb.refused⟩
  | finish loop i res hr =>
    have hne : s.runner ≠ .returned := by rw [hr]; nofun
    refine ⟨fun k r hk => ?_, fun k r hk => ?_, fun x hx => ?_, fun k r hk => ?_, ?_, fun k hk => ?_,
      fun k hk => ?_⟩
    · simp [h.channel k r hk]
    · simp [h.own k r hk]
    · obtain rfl : (i, res) = x := by simpa [Runner.unreported] using hx
      simp
    · simp only [ends_snoc, Event.ended?, Option.toList_some, mem_append,
        mem_singleton] at hk
      rcases hk with hk | hk
      · rcases h.kept k r hk with hu | hrest
        · rw [hr] at hu; simp [Runner.unreported] at hu
        · exact .inr hrest
      · exact .inl (by rw [hk]; rfl)
    · have := h.closed
      simp only [hne, iff_false, reduceCtorEq] at this ⊢
      exact this
    · exact absurd (h.looking k hk) hne
    · simpa [hne] using h.refused k hk
  | report loop i res hr hc =>
    have hne : s.runner ≠ .returned := by rw [hr]; nofun
    have hloop : loop.head ≠ (.returned : Runner Err) ∧
        (loop.head : Runner Err).unreported = none := by cases loop <;> exact ⟨nofun, rfl⟩
    refine ⟨fun k r hk => ?_, h.own, fun x hx => ?_, fun k r hk => ?_, ?_, fun k hk => ?_,
      fun k hk => ?_⟩
    · by_cases hki : k = i
      · subst hki
        obtain rfl : res = r := by simpa using hk
        exact h.report _ (by rw [hr]; rfl)
      · simp only [Function.update_of_ne hki] at hk
        exact h.channel k r hk
    · rw [hloop.2] at hx; simp at hx
    · rcases h.kept k r hk with hu | hu | hrest
      · rw [hr] at hu
        obtain ⟨rfl, rfl⟩ : i = k ∧ res = r := by simpa [Runner.unreported] using hu
        exact .inr (.inl (Function.update_self ..))
      · have hki : k ≠ i := by rintro rfl; rw [hc] at hu; simp at hu
        exact .inr (.inl (by simpa only [Function.update_of_ne hki] using hu))
      · exact .inr (.inr hrest)
    · have := h.closed
      simp only [hne, hloop.1, iff_false] at this ⊢
      exact this
    · exact absurd (h.looking k hk) hne
    · exact ⟨(h.refused k hk).1, .inl ((h.refused k hk).2.resolve_right hne)⟩
  | close hr =>
    have hkept : ∀ i res, (i, res) ∈ ends s.log → s.resultCh i = some res ∨
        ∃ how, s.caller i = .returned how ∧ how ≠ .errStopped := fun i res hi => by
      rcases h.kept i res hi with hu | hrest
      · rw [hr] at hu; simp [Runner.unreported] at hu
      · exact hrest
    exact ⟨by simpa using h.channel, by simpa using h.own, nofun,
      fun i res hi => .inr (hkept i res (by simpa using hi)), by simp, fun _ _ => rfl,
      fun k hk => ⟨by simpa using (h.refused k hk).1, .inr rfl⟩⟩

/-! ### Jobs sent before the drain -/

/-- `Run` has entered `drain`; it has then found the high queue empty, and also the low one. -/
def Runner.inDrain : Runner Err → Bool
  | .running loop _ => loop == .drain
  | .reporting loop _ _ => loop == .drain
  | .drainHigh | .drainLow | .drained | .returned => true
  | .notStarted | .top | .inner => false

def Runner.pastHigh : Runner Err → Bool
  | .drainLow | .drained | .returned => true
  | _ => false

def Runner.pastLow : Runner Err → Bool
  | .drained | .returned => true
  | _ => false

/-- The jobs sent before `Run` entered `drain`. -/
def early (log : List (Event Err)) : List ℕ := sends (before Event.isDraining log)

/-- What is left of the early jobs in each phase, and that none is when `stopped` is closed. -/
structure Drained (s : System Err) : Prop where
  entered : s.log.any Event.isDraining = s.runner.inDrain
  closed : s.log.any Event.isClosed = true ↔ s.runner = .returned
  high : s.runner.pastHigh = true → ∀ i ∈ early s.log, i ∉ s.highPri
  low : s.runner.pastLow = true → ∀ i ∈ early s.log, i ∉ s.lowPri
  done : s.log.any Event.isClosed = true →
    ∀ i ∈ early s.log, ∃ res, (i, res) ∈ ends (before Event.isClosed s.log)

theorem drained_start : Drained (start : System Err) where
  entered := rfl
  closed := by simp [start]
  high := nofun
  low := nofun
  done := nofun

theorem mem_sends_of_early {log : List (Event Err)} {i : ℕ} (h : i ∈ early log) :
    i ∈ sends log :=
  (List.Sublist.filterMap _ (takeWhile_sublist _)).subset h

/-- Steps that neither enter `drain` nor close `stopped`. -/
theorem drained_frame (h : Drained s) (hlog : s'.log = s.log ++ l)
    (hd : l.any Event.isDraining = false) (hc : l.any Event.isClosed = false)
    (hr : s'.runner.inDrain = s.runner.inDrain)
    (hret : s'.runner = .returned ↔ s.runner = .returned)
    (hhigh : s'.runner.pastHigh = true → ∀ i ∈ early s.log, i ∉ s'.highPri)
    (hlow : s'.runner.pastLow = true → ∀ i ∈ early s.log, i ∉ s'.lowPri) : Drained s' := by
  have hclosed : s'.log.any Event.isClosed = s.log.any Event.isClosed := by
    rw [hlog, any_append, hc, Bool.or_false]
  have hearly : s'.runner.inDrain = true → early s'.log = early s.log := fun hin => by
    rw [early, hlog, before_append_of_any (by rw [h.entered, ← hr]; exact hin)]
    rfl
  have hpast : s'.runner.pastHigh = true → s'.runner.inDrain = true := by
    generalize s'.runner = r
    cases r <;> simp [Runner.pastHigh, Runner.inDrain]
  have hpast' : s'.runner.pastLow = true → s'.runner.inDrain = true := by
    generalize s'.runner = r
    cases r <;> simp [Runner.pastLow, Runner.inDrain]
  refine ⟨?_, ?_, fun hp => ?_, fun hp => ?_, fun hcl => ?_⟩
  · rw [hlog, any_append, hd, Bool.or_false, hr]
    exact h.entered
  · rw [hclosed, hret]
    exact h.closed
  · rw [hearly (hpast hp)]
    exact hhigh hp
  · rw [hearly (hpast' hp)]
    exact hlow hp
  · rw [hclosed] at hcl
    have hin : s'.runner.inDrain = true := by
      rw [hret.mpr (h.closed.mp hcl)]
      rfl
    rw [hearly hin, hlog, before_append_of_any hcl]
    exact h.done hcl

theorem drained_step (ha : Accounted jobs s) (h : Drained s) (hs : Step jobs s s') :
    Drained s' := by
  cases hs with
  | cancel f b | call i c hc | receive i res hi hr =>
    exact ⟨h.entered, h.closed, h.high, h.low, h.done⟩
  | send i hi =>
    -- the new job is not an early one: its call had not sent before
    have hnew : ∀ k ∈ early s.log, k ≠ i := by
      rintro k hk rfl
      exact (ha.past k (mem_sends_of_early hk)).2 hi
    refine drained_frame h (l := [.sent i]) (by simp [System.goto]) rfl rfl
      (by simp [System.goto]) (by simp [System.goto]) (fun hp k hk => ?_) fun hp k hk => ?_
    · have := h.high (by simpa [System.goto] using hp) k hk
      cases hpr : jobs.priority i <;> simp [System.goto, System.enqueue, this, hnew k hk]
    · have := h.low (by simpa [System.goto] using hp) k hk
      cases hpr : jobs.priority i <;> simp [System.goto, System.enqueue, this, hnew k hk]
  | idle r hr =>
    generalize hr₀ : s.runner = r₀ at hr
    refine drained_frame h (l := []) (by simp) rfl rfl ?_ ?_ ?_ ?_
    · rw [hr₀]; cases hr <;> rfl
    · rw [hr₀]; cases hr <;> simp
    · intro hp k hk
      cases hr with
      | passHigh hq => simp [hq]
      | passLow hq => exact h.high (by rw [hr₀]; rfl) k hk
      | start | pass hq => simp [Runner.pastHigh] at hp
    · intro hp k hk
      cases hr with
      | passLow hq => simp [hq]
      | passHigh hq | start | pass hq => simp [Runner.pastLow] at hp
  | take p loop i rest ht hq =>
    have hrun : s.runner.inDrain = (loop == .drain) ∧ s.runner ≠ .returned := by
      generalize s.runner = r at ht
      cases ht <;> exact ⟨rfl, nofun⟩
    exact drained_frame h (l := [.started i]) (by simp) rfl rfl (by rw [hrun.1]; rfl)
      (by simp [hrun.2]) nofun nofun
  | drain hr =>
    have hd : s.log.any Event.isDraining = false := by rw [h.entered, hr]; rfl
    have hc : s.log.any Event.isClosed = false := by
      have := h.closed
      rw [hr] at this
      simpa using this
    refine ⟨by simp [Runner.inDrain], by simp [hc], nofun, nofun, fun hcl => ?_⟩
    simp [hc] at hcl
  | finish loop i res hr =>
    exact drained_frame h (l := [.ended i res]) rfl rfl rfl (by rw [hr]; rfl) (by simp [hr])
      nofun nofun
  | report loop i res hr hc =>
    exact drained_frame h (l := []) (by simp) rfl rfl (by rw [hr]; cases loop <;> rfl)
      (by rw [hr]; cases loop <;> simp [Loop.head]) (by cases loop <;> nofun)
      (by cases loop <;> nofun)
  | close hr =>
    have hd : s.log.any Event.isDraining = true := by rw [h.entered, hr]; rfl
    have hc : s.log.any Event.isClosed = false := by
      have := h.closed
      rw [hr] at this
      simpa using this
    have hearly : early (s.log ++ [.closed]) = early s.log := by
      rw [early, before_append_of_any hd]
      rfl
    refine ⟨by simp [hd, Runner.inDrain], by simp, ?_, ?_, fun _ i hi => ?_⟩
    · rw [hearly]; exact fun _ => h.high (by rw [hr]; rfl)
    · rw [hearly]; exact fun _ => h.low (by rw [hr]; rfl)
    · -- both queues were found empty of early jobs, so this one was started and has ended
      rw [hearly] at hi
      have hst := ha.started_of_unqueued (mem_sends_of_early hi) (h.high (by rw [hr]; rfl) i hi)
        (h.low (by rw [hr]; rfl) i hi)
      rw [before_append_of_not_any hc]
      simpa [before] using ha.ended_of_started (by rw [hr]; rfl) hst

/-! ### High priority first -/

/-- `Run` is between a job's end and its next look at the high queue. -/
def Runner.atHead : Runner Err → Bool
  | .reporting _ _ _ | .top | .drainHigh => true
  | _ => false

/-- No job was started since `base` and `Run` looks at a non-empty high queue next, or the first
    job started since is a high one. -/
def HighNext (jobs : Jobs) (base : List ℕ) (s : System Err) : Prop :=
  (starts s.log = base ∧ s.highPri ≠ [] ∧ s.runner.atHead = true) ∨
    ∃ j later, starts s.log = base ++ j :: later ∧ jobs.priority j = .high

theorem Step.log_grows (hs : Step jobs s s') : ∃ l, s'.log = s.log ++ l := by
  cases hs with
  | cancel | call | receive | idle | report => exact ⟨[], (append_nil _).symm⟩
  | send i => exact ⟨_, by simp [System.goto]; rfl⟩
  | take => exact ⟨_, begin_log ..⟩
  | drain | finish | close => exact ⟨_, rfl⟩

theorem highNext_step {base : List ℕ} (ha : Accounted jobs s) (h : HighNext jobs base s)
    (hs : Step jobs s s') : HighNext jobs base s' := by
  rcases h with ⟨hb, hq, hh⟩ | ⟨j, later, hb, hj⟩
  · cases hs with
    | cancel | call | receive => exact .inl ⟨hb, hq, hh⟩
    | send i hi =>
      refine .inl ⟨by simpa [System.goto] using hb, ?_, by simpa [System.goto] using hh⟩
      cases hp : jobs.priority i <;> simp [System.goto, System.enqueue, hq]
    | idle r hr =>
      generalize s.runner = r₀ at hr hh
      cases hr with
      | pass he | passHigh he => exact absurd he hq
      | start | passLow => simp [Runner.atHead] at hh
    | take p loop i rest ht hqu =>
      have hp : p = .high := by
        generalize s.runner = r at ht hh
        cases ht <;> first | rfl | simp [Runner.atHead] at hh
      subst hp
      have hmem : i ∈ s.highPri := by
        have : s.highPri = i :: rest := hqu
        rw [this]
        exact mem_cons_self
      exact .inr ⟨i, [], by simp [hb], ha.high i hmem⟩
    | drain hr | finish _ _ _ hr | close hr => rw [hr] at hh; simp [Runner.atHead] at hh
    | report loop i res hr hc => exact .inl ⟨hb, hq, by cases loop <;> rfl⟩
  · obtain ⟨l, hl⟩ := hs.log_grows
    refine .inr ⟨j, later ++ starts l, ?_, hj⟩
    rw [hl, starts, filterMap_append, ← starts, ← starts, hb, append_assoc,
      cons_append]

/-! ### The protocol -/

theorem returned_stays {i : ℕ} {how : Return Err} (h : s.caller i = .returned how)
    (hs : Step jobs s s') : s'.caller i = .returned how := by
  have hne : ∀ {k c}, s.caller k = c → (∀ how', c ≠ .returned how') → i ≠ k := by
    rintro k c hk hc rfl
    exact hc how (hk ▸ h)
  cases hs with
  | cancel | idle | take | drain | finish | report | close => simpa using h
  | call k c hc =>
    have : i ≠ k := by
      rintro rfl
      rw [h] at hc
      cases hc
    simpa [System.goto, this] using h
  | send k hk => simpa [System.goto, hne hk nofun] using h
  | receive k res hk hr =>
    have : i ≠ k := hk.elim (hne · nofun) (hne · nofun)
    simpa [System.goto, this] using h

/-- The job's function has been called and has not returned. -/
def Executing (s : System Err) (i : ℕ) : Prop :=
  i ∈ starts s.log ∧ ∀ res, (i, res) ∉ ends s.log

theorem Accounted.executing (h : Accounted jobs s) {i : ℕ} (hi : Executing s i) :
    s.runner.job? = some i := by
  have hst := hi.1
  rw [h.ended, mem_append, mem_map] at hst
  rcases hst with ⟨⟨k, res⟩, hk, rfl⟩ | hst
  · exact absurd hk (hi.2 res)
  · simpa using hst

/-- The three invariants together. -/
structure Inv (jobs : Jobs) (s : System Err) : Prop where
  accounted : Accounted jobs s
  answered : Answered s
  drained : Drained s

theorem inv_step {a : Action Err} (h : Inv jobs s) (hs : step jobs s a = some s') : Inv jobs s' :=
  ⟨accounted_step h.accounted (.of_step hs), answered_step h.accounted h.answered (.of_step hs),
    drained_step h.accounted h.drained (.of_step hs)⟩

theorem inv_start (jobs : Jobs) : Inv jobs (start : System Err) :=
  ⟨accounted_start jobs, answered_start, drained_start⟩

/-- A call that has returned `ErrStopped` has a job that was not started, now or later. -/
theorem never_started {acts : List (Action Err)} {i : ℕ} (h : Inv jobs s)
    (hi : s.caller i = .returned .errStopped) (hrun : run (step jobs) s acts = some s') :
    i ∉ starts s'.log := by
  have hI : Inv jobs s' ∧ s'.caller i = .returned .errStopped :=
    inv_run (I := fun s => Inv jobs s ∧ s.caller i = .returned .errStopped)
      (fun _ _ _ hI hs => ⟨inv_step hI.1 hs, returned_stays hI.2 (.of_step hs)⟩) ⟨h, hi⟩ hrun
  exact (hI.1.answered.refused i hI.2).1

/-- From the end of a job with a high one queued, the first job started is a high one. -/
theorem high_after_finish {m : System Err} {acts : List (Action Err)} {res : Result Err}
    (h : Inv jobs s) (hfin : step jobs s (.run (.finish res)) = some m) (hq : m.highPri ≠ [])
    (hrun : run (step jobs) m acts = some s') :
    ∃ later, starts s'.log = starts m.log ++ later ∧
      ∀ j ∈ later.head?, jobs.priority j = .high := by
  have hhead : m.runner.atHead = true := by
    cases hr : s.runner <;>
      simp only [step, runStep, hr, reduceCtorEq, Option.some.injEq] at hfin
    subst hfin
    rfl
  have hI : Inv jobs s' ∧ HighNext jobs (starts m.log) s' :=
    inv_run (I := fun s => Inv jobs s ∧ HighNext jobs (starts m.log) s)
      (fun _ _ _ hI hs => ⟨inv_step hI.1 hs, highNext_step hI.1.accounted hI.2 (.of_step hs)⟩)
      ⟨inv_step h hfin, .inl ⟨rfl, hq, hhead⟩⟩ hrun
  rcases hI.2 with ⟨hb, -⟩ | ⟨j, later, hb, hj⟩
  · exact ⟨[], by simpa using hb, by simp⟩
  · exact ⟨j :: later, hb, by simpa using hj⟩

/-- CORRECT: in every state of every run, whatever the number of calls, their priorities, the
    cancellations and the interleaving:
    at most one job function is executing; no job was started twice; a call that returned a result
    returned that of its own completed run, its only one; a call that returned `ErrStopped` has a job
    that was not started and is started in no continuation; once `stopped` is closed, every job sent
    before `Run` entered `drain` had ended before that; and when a job ends with a job in the high
    queue, the first job started afterwards, in any continuation, is a high one. -/
theorem scheduler_protocol (jobs : Jobs) (acts : List (Action Err)) (s : System Err)
    (h : run (step jobs) start acts = some s) :
    (∀ i j, Executing s i → Executing s j → i = j) ∧
    (starts s.log).Nodup ∧
    (∀ i res, s.caller i = .returned (.own res) →
      (i, res) ∈ ends s.log ∧ ∀ res', (i, res') ∈ ends s.log → res' = res) ∧
    (∀ i, s.caller i = .returned .errStopped →
      i ∉ starts s.log ∧
        ∀ acts' s', run (step jobs) s acts' = some s' → i ∉ starts s'.log) ∧
    (.closed ∈ s.log → ∀ i ∈ sends (before Event.isDraining s.log),
      ∃ res, (i, res) ∈ ends (before Event.isClosed s.log)) ∧
    (∀ res m acts' s', step jobs s (.run (.finish res)) = some m → m.highPri ≠ [] →
      run (step jobs) m acts' = some s' →
      ∃ later, starts s'.log = starts m.log ++ later ∧
        ∀ j ∈ later.head?, jobs.priority j = .high) := by
  have hI : Inv jobs s := inv_run (fun _ _ _ hI hs => inv_step hI hs) (inv_start jobs) h
  have hacc := hI.accounted
  refine ⟨fun i j hi hj => ?_, hacc.starts_nodup, fun i res hi => ?_, fun i hi => ?_, fun hc => ?_,
    fun res m acts' s' hfin hq hrun => high_after_finish hI hfin hq hrun⟩
  · have := (hacc.executing hi).symm.trans (hacc.executing hj)
    exact Option.some.inj this
  · have hown := hI.answered.own i res hi
    exact ⟨hown, fun res' h' => hacc.result_unique h' hown⟩
  · exact ⟨(hI.answered.refused i hi).1, fun acts' s' hrun => never_started hI hi hrun⟩
  · exact hI.drained.done (any_eq_true.mpr ⟨_, hc, rfl⟩)

/-- Call 1 is an admin write, the others are background writes. -/
def mixedJobs : Jobs where
  priority i := if i = 1 then .high else .low
  label i := if i = 1 then "create alert" else "insert spans"

/-- Calls 1 and 2 send while job 0 runs and call 0 gives up; after the drain calls 1 and 2 return
    their results; call 3 was past its first look at `stopped` and sends too late. -/
def shutdownRun : List (Action Unit) :=
  [.run .start, .run .pass, .submit 0 .enter, .submit 0 .send, .run .low,
    .submit 1 .enter, .submit 1 .send, .submit 2 .enter, .submit 2 .send, .submit 3 .enter,
    .cancel 0, .submit 0 .done, .cancelRun, .run (.finish ⟨5, none⟩), .run .report,
    .run .high, .run (.finish ⟨1, none⟩), .run .report, .run .pass, .run .done,
    .run .pass, .run .low, .run (.finish ⟨-1, some ()⟩), .run .report, .run .pass, .run .pass,
    .submit 3 .send, .run .close, .submit 3 .stopped, .submit 3 .result,
    .submit 1 .result, .submit 2 .stopped, .submit 2 .result]

theorem scheduler_protocol_shutdown :
    ∃ s, run (step mixedJobs) start shutdownRun = some s ∧ .closed ∈ s.log ∧
      starts s.log = [0, 1, 2] ∧ s.caller 0 = .returned .ctxErr ∧
      s.caller 1 = .returned (.own ⟨1, none⟩) ∧ s.caller 2 = .returned (.own ⟨-1, some ()⟩) ∧
      s.caller 3 = .returned .errStopped ∧ s.lowPri = [3] ∧
      ∀ i ∈ sends (before Event.isDraining s.log),
        ∃ res, (i, res) ∈ ends (before Event.isClosed s.log) :=
  ⟨_, rfl, by decide, rfl, rfl, rfl, rfl, rfl, rfl,
    (scheduler_protocol mixedJobs shutdownRun _ rfl).2.2.2.2.1 (by decide)⟩

end Spanbarn.WriteScheduler
