import Mathlib.Data.List.Basic
import Mathlib.Logic.Function.Basic
import Mathlib.Data.Int.Notation
import Spanbarn.Schemes.Run

/-! The write scheduler: submitters, two bounded queues and the one goroutine that runs the jobs.

    Every `SubmitRows` call has a number; its job carries that number. The goroutines meet only in the
    two queues, in each job's result channel (room for one) and in the closing of `stopped`:

        SubmitRows   outside → sending → waiting → looking → returned
        Run          notStarted → top ⇄ inner → drainHigh ⇄ drainLow → drained → returned
                              ↑     ↓               ↑      ↓
                           reporting ← running   reporting ← running

    A `select` with several ready cases may take any of them; a `default` case is taken only when no
    other case is ready. What has happened is kept in a log, oldest event first. -/

namespace Spanbarn.WriteScheduler
open Spanbarn.Schemes

/-- Which queue a write job enters. -/
inductive Priority where | low | high
  deriving DecidableEq, Repr

/-- What a job returns: the rows it wrote and its error. -/
structure Result (Err : Type) where
  rows : ℤ
  err : Option Err
  deriving DecidableEq, Repr

/-- The row count of a call that returns without its job's result. -/
def noRows : ℤ := -1

/-- The arguments of each call: its priority and label. -/
structure Jobs where
  priority : ℕ → Priority
  label : ℕ → String

/-- How a call returns: with its job's result, or with `noRows` and one of two errors. -/
inductive Return (Err : Type) where
  | own (res : Result Err)
  | ctxErr
  | errStopped
  deriving DecidableEq, Repr

/-- Where a `SubmitRows` call stands: before its first look at `stopped`, in the select that sends,
    in the select that waits, at its second look at the result channel, returned. -/
inductive Caller (Err : Type) where
  | outside
  | sending
  | waiting
  | looking
  | returned (how : Return Err)
  deriving DecidableEq, Repr

/-- The two loops that call `execute`. -/
inductive Loop where | main | drain
  deriving DecidableEq, Repr

/-- Where `Run` stands. `top` is the outer select of the main loop, `inner` the one in its default. -/
inductive Runner (Err : Type) where
  | notStarted
  | top
  | inner
  | running (loop : Loop) (i : ℕ)
  | reporting (loop : Loop) (i : ℕ) (res : Result Err)
  | drainHigh
  | drainLow
  | drained
  | returned
  deriving DecidableEq, Repr

/-- What has happened. -/
inductive Event (Err : Type) where
  | sent (i : ℕ)
  | started (i : ℕ)
  | ended (i : ℕ) (res : Result Err)
  | draining
  | closed
  deriving DecidableEq, Repr

/-- Capacity of a priority's queue. -/
def capacity : Priority → ℕ
  | .high => 64
  | .low => 512

structure System (Err : Type) where
  highPri : List ℕ := []
  lowPri : List ℕ := []
  stopped : Bool := false
  resultCh : ℕ → Option (Result Err) := fun _ => none
  caller : ℕ → Caller Err := fun _ => .outside
  cancelled : ℕ → Bool := fun _ => false
  runCancelled : Bool := false
  runner : Runner Err := .notStarted
  curLabel : String := ""
  log : List (Event Err) := []

variable {Err : Type}

/-! ### SubmitRows -/

/-- The moves of a call; `done` is its context's, `stopped` the scheduler's channel. -/
inductive CallMove where | enter | send | done | stopped | result
  deriving DecidableEq, Repr

/-- The queue of a priority. -/
def System.queue (s : System Err) : Priority → List ℕ
  | .high => s.highPri
  | .low => s.lowPri

/-- `ch <- j`. -/
def System.enqueue (s : System Err) (p : Priority) (i : ℕ) : System Err :=
  match p with
  | .high => { s with highPri := s.highPri ++ [i], log := s.log ++ [.sent i] }
  | .low => { s with lowPri := s.lowPri ++ [i], log := s.log ++ [.sent i] }

def System.goto (s : System Err) (i : ℕ) (c : Caller Err) : System Err :=
  { s with caller := Function.update s.caller i c }

/-- One move of call `i` through `SubmitRows`. -/
def submitRows (jobs : Jobs) (s : System Err) (i : ℕ) (m : CallMove) : Option (System Err) :=
  match s.caller i, m with
  | .outside, .enter =>
    if s.stopped then some (s.goto i (.returned .errStopped)) else some (s.goto i .sending)
  | .sending, .send =>
    if (s.queue (jobs.priority i)).length < capacity (jobs.priority i) then
      some ((s.enqueue (jobs.priority i) i).goto i .waiting)
    else none
  | .sending, .done => if s.cancelled i then some (s.goto i (.returned .ctxErr)) else none
  | .sending, .stopped => if s.stopped then some (s.goto i (.returned .errStopped)) else none
  | .waiting, .done => if s.cancelled i then some (s.goto i (.returned .ctxErr)) else none
  | .waiting, .stopped => if s.stopped then some (s.goto i .looking) else none
  | .waiting, .result =>
    match s.resultCh i with
    | some res => some { s.goto i (.returned (.own res)) with
        resultCh := Function.update s.resultCh i none }
    | none => none
  | .looking, .result =>
    match s.resultCh i with
    | some res => some { s.goto i (.returned (.own res)) with
        resultCh := Function.update s.resultCh i none }
    | none => some (s.goto i (.returned .errStopped))
  | _, _ => none

/-! ### Run, drain and execute -/

/-- The moves of `Run`; `pass` is a default case, `done` its context's, `finish` the job's return. -/
inductive RunMove (Err : Type) where
  | start
  | high
  | low
  | pass
  | done
  | finish (res : Result Err)
  | report
  | close
  deriving DecidableEq, Repr

/-- `execute` up to the call of the job: it is the job in flight from here on. -/
def System.begin (jobs : Jobs) (s : System Err) (loop : Loop) (i : ℕ) : System Err :=
  { s with
    runner := .running loop i
    curLabel := if jobs.label i = "" then "unknown" else jobs.label i
    log := s.log ++ [.started i] }

/-- Receive from the high-priority queue and execute. -/
def System.takeHigh (jobs : Jobs) (s : System Err) (loop : Loop) : Option (System Err) :=
  match s.highPri with
  | [] => none
  | i :: rest => some (System.begin jobs { s with highPri := rest } loop i)

/-- Receive from the low-priority queue and execute. -/
def System.takeLow (jobs : Jobs) (s : System Err) (loop : Loop) : Option (System Err) :=
  match s.lowPri with
  | [] => none
  | i :: rest => some (System.begin jobs { s with lowPri := rest } loop i)

/-- Where a loop goes on after `execute`. -/
def Loop.head : Loop → Runner Err
  | .main => .top
  | .drain => .drainHigh

/-- One move of `Run`. The send into a job's result channel blocks while that holds a result. -/
def runStep (jobs : Jobs) (s : System Err) (m : RunMove Err) : Option (System Err) :=
  match s.runner, m with
  | .notStarted, .start => some { s with runner := .top }
  | .top, .high => s.takeHigh jobs .main
  | .top, .pass => if s.highPri = [] then some { s with runner := .inner } else none
  | .inner, .high => s.takeHigh jobs .main
  | .inner, .low => s.takeLow jobs .main
  | .inner, .done =>
    if s.runCancelled then some { s with runner := .drainHigh, log := s.log ++ [.draining] }
    else none
  | .drainHigh, .high => s.takeHigh jobs .drain
  | .drainHigh, .pass => if s.highPri = [] then some { s with runner := .drainLow } else none
  | .drainLow, .low => s.takeLow jobs .drain
  | .drainLow, .pass => if s.lowPri = [] then some { s with runner := .drained } else none
  | .running loop i, .finish res =>
    some { s with
      runner := .reporting loop i res, curLabel := "", log := s.log ++ [.ended i res] }
  | .reporting loop i res, .report =>
    match s.resultCh i with
    | none => some { s with
        runner := loop.head, resultCh := Function.update s.resultCh i (some res) }
    | some _ => none
  | .drained, .close =>
    some { s with runner := .returned, stopped := true, log := s.log ++ [.closed] }
  | _, _ => none

/-! ### The system -/

inductive Action (Err : Type) where
  | submit (i : ℕ) (m : CallMove)
  | run (m : RunMove Err)
  | cancel (i : ℕ)
  | cancelRun
  deriving DecidableEq, Repr

/-- One step of the system. -/
def step (jobs : Jobs) (s : System Err) : Action Err → Option (System Err)
  | .submit i m => submitRows jobs s i m
  | .run m => runStep jobs s m
  | .cancel i => some { s with cancelled := Function.update s.cancelled i true }
  | .cancelRun => some { s with runCancelled := true }

/-- `New`, with no call made. -/
def start : System Err := {}

/-- `InFlight`: the label of the job being executed. -/
def System.inFlight (s : System Err) : String := s.curLabel

/-! ### What a step can do -/

/-- The moves of a call that change nothing but where it stands. -/
inductive CallStep (s : System Err) (i : ℕ) : Caller Err → Caller Err → Prop where
  | refuse (h : s.stopped = true) : CallStep s i .outside (.returned .errStopped)
  | enter (h : s.stopped = false) : CallStep s i .outside .sending
  | quitSending : CallStep s i .sending (.returned .ctxErr)
  | stopSending (h : s.stopped = true) : CallStep s i .sending (.returned .errStopped)
  | quitWaiting : CallStep s i .waiting (.returned .ctxErr)
  | stopWaiting (h : s.stopped = true) : CallStep s i .waiting .looking
  | stopLooking (h : s.resultCh i = none) : CallStep s i .looking (.returned .errStopped)

/-- The moves of `Run` that neither start nor end a job. -/
inductive IdleStep (s : System Err) : Runner Err → Runner Err → Prop where
  | start : IdleStep s .notStarted .top
  | pass (h : s.highPri = []) : IdleStep s .top .inner
  | passHigh (h : s.highPri = []) : IdleStep s .drainHigh .drainLow
  | passLow (h : s.lowPri = []) : IdleStep s .drainLow .drained

/-- Where `Run` stands when it receives from a queue. -/
inductive Takes : Runner Err → Priority → Loop → Prop where
  | topHigh : Takes .top .high .main
  | innerHigh : Takes .inner .high .main
  | innerLow : Takes .inner .low .main
  | drainHigh : Takes .drainHigh .high .drain
  | drainLow : Takes .drainLow .low .drain

/-- `q` is left of the queue of priority `p` when its head is received. -/
def System.dequeued (s : System Err) (p : Priority) (rest : List ℕ) : System Err :=
  match p with
  | .high => { s with highPri := rest }
  | .low => { s with lowPri := rest }

/-- Everything a step can do, with what it finds. -/
inductive Step (jobs : Jobs) (s : System Err) : System Err → Prop where
  | cancel (f : ℕ → Bool) (b : Bool) : Step jobs s { s with cancelled := f, runCancelled := b }
  | call (i : ℕ) (c : Caller Err) (h : CallStep s i (s.caller i) c) : Step jobs s (s.goto i c)
  | send (i : ℕ) (h : s.caller i = .sending) :
      Step jobs s ((s.enqueue (jobs.priority i) i).goto i .waiting)
  | receive (i : ℕ) (res : Result Err) (h : s.caller i = .waiting ∨ s.caller i = .looking)
      (hr : s.resultCh i = some res) :
      Step jobs s { s.goto i (.returned (.own res)) with
        resultCh := Function.update s.resultCh i none }
  | idle (r : Runner Err) (h : IdleStep s s.runner r) : Step jobs s { s with runner := r }
  | take (p : Priority) (loop : Loop) (i : ℕ) (rest : List ℕ) (h : Takes s.runner p loop)
      (hq : s.queue p = i :: rest) : Step jobs s (System.begin jobs (s.dequeued p rest) loop i)
  | drain (h : s.runner = .inner) :
      Step jobs s { s with runner := .drainHigh, log := s.log ++ [.draining] }
  | finish (loop : Loop) (i : ℕ) (res : Result Err) (h : s.runner = .running loop i) :
      Step jobs s { s with
        runner := .reporting loop i res, curLabel := "", log := s.log ++ [.ended i res] }
  | report (loop : Loop) (i : ℕ) (res : Result Err) (h : s.runner = .reporting loop i res)
      (hr : s.resultCh i = none) :
      Step jobs s { s with
        runner := loop.head, resultCh := Function.update s.resultCh i (some res) }
  | close (h : s.runner = .drained) :
      Step jobs s { s with runner := .returned, stopped := true, log := s.log ++ [.closed] }

variable {jobs : Jobs} {s s' : System Err}

theorem Step.of_takeHigh {loop : Loop} (ht : Takes s.runner .high loop)
    (h : s.takeHigh jobs loop = some s') : Step jobs s s' := by
  unfold System.takeHigh at h
  cases hq : s.highPri with
  | nil => rw [hq] at h; simp at h
  | cons i rest =>
    rw [hq] at h
    obtain rfl := Option.some.inj h
    exact .take .high loop i rest ht hq

theorem Step.of_takeLow {loop : Loop} (ht : Takes s.runner .low loop)
    (h : s.takeLow jobs loop = some s') : Step jobs s s' := by
  unfold System.takeLow at h
  cases hq : s.lowPri with
  | nil => rw [hq] at h; simp at h
  | cons i rest =>
    rw [hq] at h
    obtain rfl := Option.some.inj h
    exact .take .low loop i rest ht hq

theorem Step.of_submitRows {i : ℕ} {m : CallMove} (h : submitRows jobs s i m = some s') :
    Step jobs s s' := by
  have goto : ∀ {c c' : Caller Err} {b : Prop} [Decidable b], s.caller i = c →
      (if b then some (s.goto i c') else none) = some s' → (b → CallStep s i c c') →
      Step jobs s s' := by
    intro c c' b _ hc hif hstep
    obtain ⟨hb, hs⟩ := Option.ite_none_right_eq_some.mp hif
    obtain rfl := Option.some.inj hs
    exact .call i c' (hc ▸ hstep hb)
  cases hc : s.caller i with
  | outside =>
    cases m <;> simp only [submitRows, hc, reduceCtorEq] at h
    cases hs : s.stopped <;> simp only [hs, if_true, if_false, Bool.false_eq_true,
      Option.some.injEq] at h <;> subst h
    · exact .call i _ (hc ▸ .enter hs)
    · exact .call i _ (hc ▸ .refuse hs)
  | sending =>
    cases m <;> simp only [submitRows, hc, reduceCtorEq] at h
    · obtain ⟨-, hs⟩ := Option.ite_none_right_eq_some.mp h
      obtain rfl := Option.some.inj hs
      exact .send i hc
    · exact goto hc h fun _ => .quitSending
    · exact goto hc h fun hb => .stopSending hb
  | waiting =>
    cases m <;> simp only [submitRows, hc, reduceCtorEq] at h
    · exact goto hc h fun _ => .quitWaiting
    · exact goto hc h fun hb => .stopWaiting hb
    · cases hr : s.resultCh i <;> simp only [hr, reduceCtorEq, Option.some.injEq] at h
      subst h
      exact .receive i _ (.inl hc) hr
  | looking =>
    cases m <;> simp only [submitRows, hc, reduceCtorEq] at h
    cases hr : s.resultCh i <;> simp only [hr, Option.some.injEq] at h <;> subst h
    · exact .call i _ (hc ▸ .stopLooking hr)
    · exact .receive i _ (.inr hc) hr
  | returned how => cases m <;> simp only [submitRows, hc, reduceCtorEq] at h

theorem Step.of_runStep {m : RunMove Err} (h : runStep jobs s m = some s') : Step jobs s s' := by
  have idle : ∀ {r r' : Runner Err} {q : List ℕ}, s.runner = r →
      (if q = [] then some { s with runner := r' } else none) = some s' →
      (q = [] → IdleStep s r r') → Step jobs s s' := by
    intro r r' q hr hif hstep
    obtain ⟨hb, hs⟩ := Option.ite_none_right_eq_some.mp hif
    obtain rfl := Option.some.inj hs
    exact .idle r' (hr ▸ hstep hb)
  cases hr : s.runner with
  | notStarted =>
    cases m <;> simp only [runStep, hr, reduceCtorEq, Option.some.injEq] at h
    subst h
    exact .idle _ (hr ▸ .start)
  | top =>
    cases m <;> simp only [runStep, hr, reduceCtorEq] at h
    · exact .of_takeHigh (hr ▸ .topHigh) h
    · exact idle hr h .pass
  | inner =>
    cases m <;> simp only [runStep, hr, reduceCtorEq] at h
    · exact .of_takeHigh (hr ▸ .innerHigh) h
    · exact .of_takeLow (hr ▸ .innerLow) h
    · obtain ⟨-, hs⟩ := Option.ite_none_right_eq_some.mp h
      obtain rfl := Option.some.inj hs
      exact .drain hr
  | drainHigh =>
    cases m <;> simp only [runStep, hr, reduceCtorEq] at h
    · exact .of_takeHigh (hr ▸ .drainHigh) h
    · exact idle hr h .passHigh
  | drainLow =>
    cases m <;> simp only [runStep, hr, reduceCtorEq] at h
    · exact .of_takeLow (hr ▸ .drainLow) h
    · exact idle hr h .passLow
  | running loop i =>
    cases m <;> simp only [runStep, hr, reduceCtorEq, Option.some.injEq] at h
    subst h
    exact .finish loop i _ hr
  | reporting loop i res =>
    cases m <;> simp only [runStep, hr, reduceCtorEq] at h
    cases hc : s.resultCh i <;> simp only [hc, reduceCtorEq, Option.some.injEq] at h
    subst h
    exact .report loop i res hr hc
  | drained =>
    cases m <;> simp only [runStep, hr, reduceCtorEq, Option.some.injEq] at h
    subst h
    exact .close hr
  | returned => cases m <;> simp only [runStep, hr, reduceCtorEq] at h

theorem Step.of_step {a : Action Err} (h : step jobs s a = some s') : Step jobs s s' := by
  cases a with
  | submit i m => exact .of_submitRows h
  | run m => exact .of_runStep h
  | cancel i | cancelRun =>
    simp only [step, Option.some.injEq] at h
    subst h
    exact .cancel _ _

end Spanbarn.WriteScheduler
