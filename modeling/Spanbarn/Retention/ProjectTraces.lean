import Mathlib.Algebra.Order.Ring.Int
import Mathlib.Data.String.Basic
import Spanbarn.Schemes.Loop
import Spanbarn.Schemes.Table

/-! Evicting the old traces of one project.

    A batch of victims is read from the summaries. Their rows go from the tables of the span family, a
    chunk per write, the summaries last; what is left of them in the other files goes after that, by
    trace id.

        summaries ──▶ victims ──▶ spans ──▶ error_samples ──▶ trace_summaries ──▶ prompt_records, logs
            ▲           └── project, and summary still evictable ──┘                trace id only
            └──────────────── while a full batch was read ────────────────────────────────┘

    Trace ids come from outside, so two projects may use the same one: the last two deletes then take
    rows of the other project with them. -/

namespace Spanbarn.Retention.ProjectTraces
open List Spanbarn.Schemes

/-! ### The tables -/

/-- A row of `spans`, `error_samples`, `prompt_records` or `logs`. -/
structure TraceRow where
  rowid : ℤ
  projectID : ℤ
  traceID : Option String
  data : String := ""
  deriving DecidableEq, Repr

structure TraceSummary where
  projectID : ℤ
  traceID : String
  hasError : Bool
  ingestedAt : ℤ
  data : String := ""
  deriving DecidableEq, Repr

/-- The primary key of `trace_summaries`. -/
def summaryKey (t : TraceSummary) : ℤ × String := (t.projectID, t.traceID)

/-- The tables the eviction reads or deletes from. -/
structure Database where
  spans : List TraceRow
  errorSamples : List TraceRow
  promptRecords : List TraceRow
  logs : List TraceRow
  summaries : List TraceSummary
  keyed : Keyed summaryKey summaries
  pins : List (ℤ × String)

/-- `evictableSQL`: no error, ingested before the cutoff, not pinned. -/
def Database.evictable (db : Database) (projectID cutoff : ℤ) (t : TraceSummary) : Bool :=
  decide (t.projectID = projectID) && !t.hasError && decide (t.ingestedAt < cutoff) &&
    !decide ((t.projectID, t.traceID) ∈ db.pins)

def retentionDeleteBatch : ℕ := 1000

def evictChunk : ℕ := 1000

/-- The oldest traces the eviction takes, up to a batch. -/
def Database.evictVictims (db : Database) (projectID cutoff : ℤ) : List String :=
  ((sortRows TraceSummary.ingestedAt (db.summaries.filter (db.evictable projectID cutoff))).take
    retentionDeleteBatch).map TraceSummary.traceID

inductive CascadeTable where
  | spans | errorSamples | traceSummaries
  deriving DecidableEq, Repr

def evictCascadeTables : List CascadeTable := [.spans, .errorSamples, .traceSummaries]

inductive OtherTable where
  | promptRecords | logs
  deriving DecidableEq, Repr

def evictCascadeOtherTables : List OtherTable := [.promptRecords, .logs]

/-- The WHERE of `evictRowsSQL` for a row of the trace `id`. -/
def Database.takesRow (db : Database) (projectID cutoff : ℤ) (id : String) (x : TraceRow) : Bool :=
  decide (x.traceID = some id) && decide (x.projectID = projectID) &&
    db.summaries.any fun t => decide (t.traceID = id) && db.evictable projectID cutoff t

/-- The rows one write of the eviction deletes from a table keyed by trace id. -/
def Database.rowHits (db : Database) (projectID cutoff : ℤ) (victims : List String)
    (rows : List TraceRow) : List TraceRow :=
  (victims.flatMap fun id => rows.filter (db.takesRow projectID cutoff id)).take evictChunk

/-- The summaries one write of the eviction deletes. -/
def Database.summaryHits (db : Database) (projectID cutoff : ℤ) (victims : List String) :
    List TraceSummary :=
  (victims.flatMap fun id => db.summaries.filter fun t =>
    decide (t.traceID = id) && db.evictable projectID cutoff t).take evictChunk

/-- One write of the eviction, with the trace ids it returns. -/
def Database.evictRows (db : Database) (projectID cutoff : ℤ) (victims : List String) :
    CascadeTable → Database × List String
  | .spans =>
    let hits := db.rowHits projectID cutoff victims db.spans
    ({ db with spans := db.spans.filter fun x => decide (x ∉ hits) }, hits.filterMap TraceRow.traceID)
  | .errorSamples =>
    let hits := db.rowHits projectID cutoff victims db.errorSamples
    ({ db with errorSamples := db.errorSamples.filter fun x => decide (x ∉ hits) },
      hits.filterMap TraceRow.traceID)
  | .traceSummaries =>
    let hits := db.summaryHits projectID cutoff victims
    ({ db with
      summaries := db.summaries.filter fun t => decide (t ∉ hits)
      keyed := db.keyed.filter _ }, hits.map TraceSummary.traceID)

/-- `DELETE … WHERE trace_id IN (…)`. -/
def withoutTraces (ids : List String) (rows : List TraceRow) : List TraceRow :=
  rows.filter fun x => !x.traceID.any fun id => decide (id ∈ ids)

def Database.deleteOther (db : Database) (ids : List String) : OtherTable → Database
  | .promptRecords => { db with promptRecords := withoutTraces ids db.promptRecords }
  | .logs => { db with logs := withoutTraces ids db.logs }

/-! ### The call -/

/-- Where the call stands: about to read victims, in the loop over the tables of the span family, or over
    the other tables. -/
inductive Pc where
  | reading
  | deleting (tables : List CascadeTable) (victims evicted : List String)
  | others (tables : List OtherTable) (victims evicted : List String)
  | done
  deriving DecidableEq, Repr

structure Call where
  db : Database
  pc : Pc := .reading
  total : ℕ := 0

/-- The next database call, or the move to it. A call that fails ends there. -/
def step (projectID cutoff : ℤ) (c : Call) : Call :=
  match c.pc with
  | .reading =>
    let victims := c.db.evictVictims projectID cutoff
    { c with pc := if victims = [] then .done else .deleting evictCascadeTables victims [] }
  | .deleting (table :: rest) victims evicted =>
    let (db, ids) := c.db.evictRows projectID cutoff victims table
    let evicted := if table = .traceSummaries then evicted ++ ids else evicted
    { c with
      db, pc := .deleting (if ids.length < evictChunk then rest else table :: rest) victims evicted }
  | .deleting [] victims evicted =>
    { c with pc := .others (if evicted = [] then [] else evictCascadeOtherTables) victims evicted }
  | .others (table :: rest) victims evicted =>
    { c with db := c.db.deleteOther evicted table, pc := .others rest victims evicted }
  | .others [] victims evicted =>
    { c with
      pc := if victims.length < retentionDeleteBatch then .done else .reading
      total := c.total + evicted.length }
  | .done => c

/-- `EvictProjectTracesOlderThan` after so many steps; enough of them and it has returned. -/
def evictProjectTracesOlderThan (projectID cutoff : ℤ) (steps : ℕ) (db : Database) : Call :=
  (step projectID cutoff)^[steps] { db }

/-! ### What may go -/

/-- The project has such a trace, and the eviction takes it. -/
def Evictable (db : Database) (projectID cutoff : ℤ) (id : String) : Prop :=
  ∃ t ∈ db.summaries, t.traceID = id ∧ db.evictable projectID cutoff t = true

/-- The trace has an error, or is pinned. -/
def Protected (db : Database) (projectID : ℤ) (id : String) : Prop :=
  (∃ t ∈ db.summaries, t.projectID = projectID ∧ t.traceID = id ∧ t.hasError = true) ∨
    (projectID, id) ∈ db.pins

/-- The tables hold the same rows of the projects and traces selected. -/
structure Same (p : ℤ → Option String → Bool) (db db' : Database) : Prop where
  spans : db'.spans.filter (fun x => p x.projectID x.traceID) =
    db.spans.filter fun x => p x.projectID x.traceID
  errorSamples : db'.errorSamples.filter (fun x => p x.projectID x.traceID) =
    db.errorSamples.filter fun x => p x.projectID x.traceID
  promptRecords : db'.promptRecords.filter (fun x => p x.projectID x.traceID) =
    db.promptRecords.filter fun x => p x.projectID x.traceID
  logs : db'.logs.filter (fun x => p x.projectID x.traceID) =
    db.logs.filter fun x => p x.projectID x.traceID
  summaries : db'.summaries.filter (fun t => p t.projectID (some t.traceID)) =
    db.summaries.filter fun t => p t.projectID (some t.traceID)
  pins : db'.pins = db.pins

/-- No other project has prompt records or logs of a trace id the eviction takes. -/
def NoSharedTrace (db : Database) (projectID cutoff : ℤ) : Prop :=
  ∀ x ∈ db.promptRecords ++ db.logs, x.projectID ≠ projectID → ∀ id ∈ x.traceID,
    ¬Evictable db projectID cutoff id

variable {t : TraceSummary} {id : String} {c : Call} {victims : List String}

section safe
variable {projectID cutoff : ℤ} {db : Database}

theorem evictable_iff : db.evictable projectID cutoff t = true ↔
    t.projectID = projectID ∧ t.hasError = false ∧ t.ingestedAt < cutoff ∧
      (t.projectID, t.traceID) ∉ db.pins := by
  simp [Database.evictable, and_assoc]

/-- A trace the eviction takes is not protected: a project has one summary of a trace. -/
theorem Evictable.not_protected (h : Evictable db projectID cutoff id) :
    ¬Protected db projectID id := by
  obtain ⟨t, ht, rfl, hev⟩ := h
  obtain ⟨rfl, herror, -, hpin⟩ := evictable_iff.mp hev
  rintro (⟨u, hu, hproject, htrace, huerror⟩ | hpinned)
  · have : u = t := db.keyed.eq_of_key hu ht (Prod.ext hproject htrace)
    rw [this, herror] at huerror
    cases huerror
  · exact hpin hpinned

/-- A row of the project and of a trace the eviction takes. -/
def Doomed (db : Database) (projectID cutoff project : ℤ) (trace : Option String) : Prop :=
  project = projectID ∧ ∃ id ∈ trace, Evictable db projectID cutoff id

def Pc.evicted : Pc → List String
  | .deleting _ _ evicted => evicted
  | .others _ _ evicted => evicted
  | _ => []

/-- Since the call began, doomed rows have gone and no others. -/
structure Safe (db : Database) (projectID cutoff : ℤ) (c : Call) : Prop where
  spans : Removed (fun x => Doomed db projectID cutoff x.projectID x.traceID) db.spans c.db.spans
  errorSamples : Removed (fun x => Doomed db projectID cutoff x.projectID x.traceID)
    db.errorSamples c.db.errorSamples
  promptRecords : Removed (fun x => Doomed db projectID cutoff x.projectID x.traceID)
    db.promptRecords c.db.promptRecords
  logs : Removed (fun x => Doomed db projectID cutoff x.projectID x.traceID) db.logs c.db.logs
  summaries : Removed (fun t => Doomed db projectID cutoff t.projectID (some t.traceID))
    db.summaries c.db.summaries
  pins : c.db.pins = db.pins
  evicted : ∀ id ∈ c.pc.evicted, Evictable db projectID cutoff id

theorem Safe.same (h : Safe db projectID cutoff c) {p : ℤ → Option String → Bool}
    (hp : ∀ project trace, Doomed db projectID cutoff project trace → p project trace = false) :
    Same p db c.db where
  spans := h.spans.query_eq fun x => hp x.projectID x.traceID
  errorSamples := h.errorSamples.query_eq fun x => hp x.projectID x.traceID
  promptRecords := h.promptRecords.query_eq fun x => hp x.projectID x.traceID
  logs := h.logs.query_eq fun x => hp x.projectID x.traceID
  summaries := h.summaries.query_eq fun t => hp t.projectID (some t.traceID)
  pins := h.pins

/-- What the eviction takes now it took when it began. -/
theorem Safe.evictable (h : Safe db projectID cutoff c) (ht : t ∈ c.db.summaries)
    (hev : c.db.evictable projectID cutoff t = true) :
    Evictable db projectID cutoff t.traceID := by
  refine ⟨t, h.summaries.subset t ht, rfl, ?_⟩
  rw [evictable_iff] at hev ⊢
  rwa [h.pins] at hev

theorem mem_rowHits {rows : List TraceRow} {x : TraceRow}
    (h : x ∈ db.rowHits projectID cutoff victims rows) :
    x.projectID = projectID ∧ ∃ t ∈ db.summaries, x.traceID = some t.traceID ∧
      db.evictable projectID cutoff t = true := by
  obtain ⟨id, -, hx⟩ := mem_flatMap.mp (mem_of_mem_take h)
  have htakes := (mem_filter.mp hx).2
  simp only [Database.takesRow, Bool.and_eq_true, decide_eq_true_eq, any_eq_true] at htakes
  obtain ⟨⟨htrace, hproject⟩, t, ht, rfl, hev⟩ := htakes
  exact ⟨hproject, t, ht, htrace, hev⟩

theorem mem_summaryHits (h : t ∈ db.summaryHits projectID cutoff victims) :
    t ∈ db.summaries ∧ t.traceID ∈ victims ∧ db.evictable projectID cutoff t = true := by
  obtain ⟨id, hid, hsel⟩ := mem_flatMap.mp (mem_of_mem_take h)
  simp only [mem_filter, Bool.and_eq_true, decide_eq_true_eq] at hsel
  obtain ⟨ht, rfl, hev⟩ := hsel
  exact ⟨ht, hid, hev⟩

/-- The rows a write takes from a table keyed by trace id are doomed. -/
theorem Safe.doomed (h : Safe db projectID cutoff c) {rows : List TraceRow} {x : TraceRow}
    (hx : decide (x ∉ c.db.rowHits projectID cutoff victims rows) = false) :
    Doomed db projectID cutoff x.projectID x.traceID := by
  obtain ⟨hproject, t, ht, htrace, hev⟩ := mem_rowHits (Decidable.of_not_not (of_decide_eq_false hx))
  exact ⟨hproject, t.traceID, htrace, h.evictable ht hev⟩

theorem Safe.evictRows (h : Safe db projectID cutoff c) {table : CascadeTable}
    {rest : List CascadeTable} {evicted : List String}
    (hpc : c.pc = .deleting (table :: rest) victims evicted) :
    Safe db projectID cutoff (step projectID cutoff c) := by
  have hevicted := h.evicted
  rw [hpc] at hevicted
  simp only [step, hpc]
  cases table with
  | spans => exact { h with spans := h.spans.filter fun x _ => h.doomed, evicted := hevicted }
  | errorSamples =>
    exact { h with errorSamples := h.errorSamples.filter fun x _ => h.doomed, evicted := hevicted }
  | traceSummaries =>
    have hhit : ∀ t ∈ c.db.summaryHits projectID cutoff victims,
        Evictable db projectID cutoff t.traceID := fun t ht => by
      obtain ⟨hmem, -, hev⟩ := mem_summaryHits ht
      exact h.evictable hmem hev
    refine { h with summaries := h.summaries.filter fun t _ ht => ?_, evicted := ?_ }
    · have ht := Decidable.of_not_not (of_decide_eq_false ht)
      have hproject := (evictable_iff.mp (mem_summaryHits ht).2.2).1
      exact ⟨hproject, t.traceID, rfl, hhit t ht⟩
    · refine forall_mem_append.mpr ⟨hevicted, fun id hid => ?_⟩
      obtain ⟨t, ht, rfl⟩ := mem_map.mp hid
      exact hhit t ht

/-- With no trace id shared, the rows the last deletes take are the project's own. -/
theorem Safe.deleteOther (h : Safe db projectID cutoff c)
    (hshared : NoSharedTrace db projectID cutoff) {table : OtherTable} {rest : List OtherTable}
    {evicted : List String} (hpc : c.pc = .others (table :: rest) victims evicted) :
    Safe db projectID cutoff (step projectID cutoff c) := by
  have hevicted := h.evicted
  rw [hpc] at hevicted
  have hdoomed : ∀ x ∈ db.promptRecords ++ db.logs,
      (!x.traceID.any fun id => decide (id ∈ evicted)) = false →
        Doomed db projectID cutoff x.projectID x.traceID := fun x hx hgo => by
    simp only [Bool.not_eq_false', Option.any_eq_true, decide_eq_true_eq] at hgo
    obtain ⟨id, htrace, hid⟩ := hgo
    have hev := hevicted id hid
    refine ⟨?_, id, htrace, hev⟩
    by_contra hother
    exact hshared x hx hother id htrace hev
  simp only [step, hpc]
  cases table with
  | promptRecords =>
    refine { h with
      promptRecords := h.promptRecords.filter fun x hx => hdoomed x ?_
      evicted := hevicted }
    exact mem_append_left _ (h.promptRecords.subset x hx)
  | logs =>
    refine { h with logs := h.logs.filter fun x hx => hdoomed x ?_, evicted := hevicted }
    exact mem_append_right _ (h.logs.subset x hx)

theorem safe_step (hshared : NoSharedTrace db projectID cutoff) (c : Call)
    (h : Safe db projectID cutoff c) : Safe db projectID cutoff (step projectID cutoff c) := by
  cases hpc : c.pc with
  | reading =>
    simp only [step, hpc]
    refine { h with evicted := ?_ }
    split <;> exact forall_mem_nil _
  | deleting tables victims evicted =>
    cases tables with
    | cons table rest => exact h.evictRows hpc
    | nil =>
      have hevicted := h.evicted
      rw [hpc] at hevicted
      simp only [step, hpc]
      exact { h with evicted := hevicted }
  | others tables victims evicted =>
    cases tables with
    | cons table rest => exact h.deleteOther hshared hpc
    | nil =>
      simp only [step, hpc]
      refine { h with evicted := ?_ }
      split <;> exact forall_mem_nil _
  | done =>
    simp only [step, hpc]
    exact h

end safe

/-! ### The call comes to an end -/

/-- The rows of the table a loop deletes from. -/
def Database.size (db : Database) : CascadeTable → ℕ
  | .spans => db.spans.length
  | .errorSamples => db.errorSamples.length
  | .traceSummaries => db.summaries.length

/-- Summaries have gone, those of victims only, and their ids are noted. -/
structure Progress (victims : List String) (db : Database) (evicted : List String) (db' : Database)
    (evicted' : List String) : Prop where
  pins : db'.pins = db.pins
  summaries : db'.summaries.Sublist db.summaries
  moved : ∀ t ∈ db.summaries, t ∈ db'.summaries ∨ t.traceID ∈ victims ∧ t.traceID ∈ evicted'
  noted : ∀ id ∈ evicted, id ∈ evicted'

variable {db : Database}

section progress
variable {projectID cutoff : ℤ} {victims : List String}

theorem Progress.trans {db' db'' : Database} {ev ev' ev'' : List String}
    (h : Progress victims db ev db' ev') (h' : Progress victims db' ev' db'' ev'') :
    Progress victims db ev db'' ev'' where
  pins := h'.pins.trans h.pins
  summaries := h'.summaries.trans h.summaries
  moved := fun t ht => by
    rcases h.moved t ht with ht | ⟨hv, hid⟩
    · exact h'.moved t ht
    · exact .inr ⟨hv, h'.noted _ hid⟩
  noted := fun id hid => h'.noted id (h.noted id hid)

theorem length_filter_not_mem_lt {α : Type} [DecidableEq α] {rows hits : List α}
    (hsub : ∀ x ∈ hits, x ∈ rows) (hne : hits ≠ []) :
    (rows.filter fun x => decide (x ∉ hits)).length < rows.length := by
  obtain ⟨x, hx⟩ := exists_mem_of_ne_nil _ hne
  rw [length_filter_lt_length_iff_exists]
  exact ⟨x, hsub x hx, by simpa using hx⟩

theorem rowHits_subset {rows : List TraceRow} :
    ∀ x ∈ db.rowHits projectID cutoff victims rows, x ∈ rows := fun x hx => by
  obtain ⟨id, -, hx⟩ := mem_flatMap.mp (mem_of_mem_take hx)
  exact (mem_filter.mp hx).1

/-- A full chunk makes the table smaller. -/
theorem size_evictRows {table : CascadeTable}
    (h : evictChunk ≤ (db.evictRows projectID cutoff victims table).2.length) :
    (db.evictRows projectID cutoff victims table).1.size table < db.size table := by
  have hpos : 0 < evictChunk := by decide
  cases table with
  | spans | errorSamples =>
    refine length_filter_not_mem_lt rowHits_subset fun hnil => ?_
    simp only [Database.evictRows, hnil, filterMap_nil, length_nil] at h
    omega
  | traceSummaries =>
    refine length_filter_not_mem_lt (fun t ht => (mem_summaryHits ht).1) fun hnil => ?_
    simp only [Database.evictRows, hnil, map_nil, length_nil] at h
    omega

/-- What one write of the loop hands on. -/
def nextEvicted (table : CascadeTable) (evicted ids : List String) : List String :=
  if table = .traceSummaries then evicted ++ ids else evicted

theorem progress_evictRows (projectID cutoff : ℤ) (victims : List String) (db : Database)
    (table : CascadeTable) (evicted : List String) :
    Progress victims db evicted (db.evictRows projectID cutoff victims table).1
      (nextEvicted table evicted (db.evictRows projectID cutoff victims table).2) := by
  cases table with
  | spans | errorSamples => exact ⟨rfl, .refl _, fun _ ht => .inl ht, fun _ hid => hid⟩
  | traceSummaries =>
    refine ⟨rfl, filter_sublist, fun t ht => ?_, fun id hid => mem_append_left _ hid⟩
    by_cases hhit : t ∈ db.summaryHits projectID cutoff victims
    · exact .inr ⟨(mem_summaryHits hhit).2.1, mem_append_right _ (mem_map_of_mem hhit)⟩
    · exact .inl (mem_filter.mpr ⟨ht, decide_eq_true hhit⟩)

/-- No summary of a victim is left for the eviction to take. -/
def Cleared (projectID cutoff : ℤ) (victims : List String) (db : Database) : Prop :=
  ∀ t ∈ db.summaries, t.traceID ∈ victims → db.evictable projectID cutoff t = false

/-- The last chunk of the summaries has all there are. -/
theorem cleared_evictRows
    (h : (db.evictRows projectID cutoff victims .traceSummaries).2.length < evictChunk) :
    Cleared projectID cutoff victims (db.evictRows projectID cutoff victims .traceSummaries).1 := by
  intro t ht hv
  obtain ⟨ht, hnot⟩ := mem_filter.mp ht
  have hnot := of_decide_eq_true hnot
  by_contra hne
  have hev : db.evictable projectID cutoff t = true := Bool.eq_true_of_not_eq_false hne
  refine hnot ?_
  have hall : db.summaryHits projectID cutoff victims = victims.flatMap fun id =>
      db.summaries.filter fun t => decide (t.traceID = id) && db.evictable projectID cutoff t := by
    refine take_of_length_le (Nat.le_of_lt ?_)
    have hlen : (db.summaryHits projectID cutoff victims).length < evictChunk := by
      simpa [Database.evictRows] using h
    rw [Database.summaryHits, length_take] at hlen
    omega
  rw [hall]
  refine mem_flatMap.mpr ⟨t.traceID, hv, mem_filter.mpr ⟨ht, ?_⟩⟩
  rw [hev, decide_eq_true rfl, Bool.and_self]

theorem step_deleting (projectID cutoff : ℤ) (victims : List String) (db : Database)
    (table : CascadeTable) (rest : List CascadeTable) (evicted : List String) (total : ℕ) :
    step projectID cutoff ⟨db, .deleting (table :: rest) victims evicted, total⟩ =
      ⟨(db.evictRows projectID cutoff victims table).1,
        .deleting (if (db.evictRows projectID cutoff victims table).2.length < evictChunk then rest
          else table :: rest) victims
          (nextEvicted table evicted (db.evictRows projectID cutoff victims table).2), total⟩ := rfl

/-- The loop over one table ends. -/
theorem table_reaches (table : CascadeTable) (rest : List CascadeTable) (total : ℕ) :
    ∀ (n : ℕ) (db : Database) (evicted : List String), db.size table = n → ∃ db' evicted',
      Reaches (step projectID cutoff) ⟨db, .deleting (table :: rest) victims evicted, total⟩
        ⟨db', .deleting rest victims evicted', total⟩ ∧
      Progress victims db evicted db' evicted' ∧
      (table = .traceSummaries → Cleared projectID cutoff victims db') := by
  intro n
  induction n using Nat.strongRecOn with
  | ind n ih =>
    intro db evicted hn
    have hprogress := progress_evictRows projectID cutoff victims db table evicted
    have hstep := step_deleting projectID cutoff victims db table rest evicted total
    by_cases hlast : (db.evictRows projectID cutoff victims table).2.length < evictChunk
    · rw [if_pos hlast] at hstep
      refine ⟨_, _, .step hstep (.refl _ _), hprogress, ?_⟩
      rintro rfl
      exact cleared_evictRows hlast
    · rw [if_neg hlast] at hstep
      have hlt := size_evictRows (Nat.le_of_not_lt hlast)
      rw [hn] at hlt
      obtain ⟨db', evicted', hreach, hrest, hcleared⟩ := ih _ hlt _ _ rfl
      exact ⟨db', evicted', .step hstep hreach, hprogress.trans hrest, hcleared⟩

/-- All rows of the victims go from the span family. -/
theorem cascade_reaches (projectID cutoff : ℤ) (victims : List String) (db : Database) (total : ℕ) :
    ∃ db' evicted,
      Reaches (step projectID cutoff) ⟨db, .deleting evictCascadeTables victims [], total⟩
        ⟨db', .deleting [] victims evicted, total⟩ ∧
      Progress victims db [] db' evicted ∧ Cleared projectID cutoff victims db' := by
  obtain ⟨db₁, ev₁, h₁, p₁, -⟩ := table_reaches .spans [.errorSamples, .traceSummaries] total _ db []
    rfl
  obtain ⟨db₂, ev₂, h₂, p₂, -⟩ := table_reaches .errorSamples [.traceSummaries] total _ db₁ ev₁ rfl
  obtain ⟨db₃, ev₃, h₃, p₃, hcleared⟩ := table_reaches .traceSummaries [] total _ db₂ ev₂ rfl
  exact ⟨db₃, ev₃, h₁.trans (h₂.trans h₃), p₁.trans (p₂.trans p₃), hcleared rfl⟩

/-- The other tables hold no row of the traces. -/
def WithoutOther (ids : List String) (db : Database) : Prop :=
  ∀ x ∈ db.promptRecords ++ db.logs, ∀ id ∈ x.traceID, id ∉ ids

theorem not_mem_of_withoutTraces {ids : List String} {rows : List TraceRow} :
    ∀ x ∈ withoutTraces ids rows, ∀ id ∈ x.traceID, id ∉ ids := by
  intro x hx id hid hmem
  have hgo := (mem_filter.mp hx).2
  rw [Option.mem_def.mp hid] at hgo
  simp [hmem] at hgo

/-- After that the rows of the traces whose summary went are gone from the other tables. -/
theorem others_reaches (projectID cutoff : ℤ) (victims evicted : List String) (db : Database)
    (total : ℕ) : ∃ db', Reaches (step projectID cutoff) ⟨db, .deleting [] victims evicted, total⟩
      ⟨db', .others [] victims evicted, total⟩ ∧ db'.summaries = db.summaries ∧ db'.pins = db.pins ∧
      WithoutOther evicted db' := by
  by_cases hnil : evicted = []
  · refine ⟨db, .step ?_ (.refl _ _), rfl, rfl, ?_⟩
    · simp [step, hnil]
    · subst hnil
      exact fun _ _ _ _ => not_mem_nil
  · have hstart : step projectID cutoff ⟨db, .deleting [] victims evicted, total⟩ =
        ⟨db, .others [.promptRecords, .logs] victims evicted, total⟩ := by
      simp [step, if_neg hnil, evictCascadeOtherTables]
    refine ⟨(db.deleteOther evicted .promptRecords).deleteOther evicted .logs,
      .step hstart ⟨2, rfl⟩, rfl, rfl, ?_⟩
    · intro x hx
      rcases mem_append.mp hx with hx | hx
      · exact not_mem_of_withoutTraces x hx
      · exact not_mem_of_withoutTraces x hx

theorem mem_evictVictims (h : id ∈ db.evictVictims projectID cutoff) :
    Evictable db projectID cutoff id := by
  obtain ⟨t, ht, rfl⟩ := mem_map.mp h
  have ht := (sortRows_perm _ _).mem_iff.mp (mem_of_mem_take ht)
  obtain ⟨ht, hev⟩ := mem_filter.mp ht
  exact ⟨t, ht, rfl, hev⟩

/-- A batch that is not full has all traces there are. -/
theorem evictVictims_all (h : (db.evictVictims projectID cutoff).length < retentionDeleteBatch)
    (hid : Evictable db projectID cutoff id) : id ∈ db.evictVictims projectID cutoff := by
  obtain ⟨t, ht, rfl, hev⟩ := hid
  refine mem_map_of_mem ?_
  rw [Database.evictVictims, length_map, length_take] at h
  rw [take_of_length_le (by omega)]
  exact (sortRows_perm _ _).mem_iff.mpr (mem_filter.mpr ⟨ht, hev⟩)

/-- The other tables lose all rows of a trace the eviction takes. -/
theorem reaches_without (projectID cutoff : ℤ) (id : String) : ∀ (n : ℕ) (db : Database) (total : ℕ),
    db.summaries.length = n → Evictable db projectID cutoff id →
      ∃ c, Reaches (step projectID cutoff) ⟨db, .reading, total⟩ c ∧ WithoutOther [id] c.db := by
  intro n
  -- on the number of summaries: a full batch makes them fewer
  induction n using Nat.strongRecOn with
  | ind n ih =>
    intro db total hn hid
    have hne : db.evictVictims projectID cutoff ≠ [] := fun hnil => by
      have := evictVictims_all (by rw [hnil]; decide) hid
      rw [hnil] at this
      exact absurd this not_mem_nil
    have hread : step projectID cutoff ⟨db, .reading, total⟩ =
        ⟨db, .deleting evictCascadeTables (db.evictVictims projectID cutoff) [], total⟩ := by
      simp [step, if_neg hne]
    obtain ⟨db₁, evicted, hcascade, hprogress, hcleared⟩ :=
      cascade_reaches projectID cutoff (db.evictVictims projectID cutoff) db total
    obtain ⟨db₂, hothers, hsummaries, hpins, hwithout⟩ :=
      others_reaches projectID cutoff (db.evictVictims projectID cutoff) evicted db₁ total
    have hreach := Reaches.step hread (hcascade.trans hothers)
    -- a summary the eviction took is not there any more
    have hgone : ∀ t, db.evictable projectID cutoff t = true →
        t.traceID ∈ db.evictVictims projectID cutoff → t ∉ db₁.summaries := fun t hev hv ht => by
      have hfalse := hcleared t ht hv
      rw [← Bool.not_eq_true, evictable_iff, hprogress.pins, ← evictable_iff] at hfalse
      exact hfalse hev
    obtain ⟨t, ht, rfl, hev⟩ := hid
    by_cases hv : t.traceID ∈ db.evictVictims projectID cutoff
    · refine ⟨_, hreach, fun x hx i hi hmem => hwithout x hx i hi ?_⟩
      rw [mem_singleton.mp hmem]
      exact ((hprogress.moved t ht).resolve_left (hgone t hev hv)).2
    · have hfull : ¬(db.evictVictims projectID cutoff).length < retentionDeleteBatch := fun hlt =>
        hv (evictVictims_all hlt ⟨t, ht, rfl, hev⟩)
      have hnext : step projectID cutoff
          ⟨db₂, .others [] (db.evictVictims projectID cutoff) evicted, total⟩ =
          ⟨db₂, .reading, total + evicted.length⟩ := by
        simp [step, if_neg hfull]
      have hfewer : db₂.summaries.length < n := by
        obtain ⟨first, hfirst⟩ := exists_mem_of_ne_nil _ hne
        obtain ⟨u, hu, rfl, huev⟩ := mem_evictVictims hfirst
        have hsub := hprogress.summaries
        rw [hsummaries, ← hn]
        refine lt_of_le_of_ne hsub.length_le fun heq => hgone u huev hfirst ?_
        rw [hsub.eq_of_length heq]
        exact hu
      have hstill : Evictable db₂ projectID cutoff t.traceID := by
        refine ⟨t, ?_, rfl, ?_⟩
        · rw [hsummaries]
          exact (hprogress.moved t ht).resolve_right fun h => hv h.1
        · rw [evictable_iff, hpins, hprogress.pins, ← evictable_iff]
          exact hev
      obtain ⟨c, hc, hcw⟩ := ih _ hfewer db₂ (total + evicted.length) rfl hstill
      exact ⟨c, hreach.trans (.step hnext hc), hcw⟩

end progress

/-! ### The frame -/

/-- CORRECT: the call leaves the rows of other projects and the protected traces of its own as they are,
    wherever it stops, exactly when no other project has prompt records or logs of a trace it takes. -/
theorem eviction_leaves_others_iff (db : Database) (projectID cutoff : ℤ) :
    (∀ steps,
      Same (fun project _ => decide (project ≠ projectID)) db
        (evictProjectTracesOlderThan projectID cutoff steps db).db ∧
      ∀ id, Protected db projectID id →
        Same (fun project trace => decide (project = projectID ∧ trace = some id)) db
          (evictProjectTracesOlderThan projectID cutoff steps db).db) ↔
    NoSharedTrace db projectID cutoff := by
  constructor
  · intro hsame x hx hother id htrace hid
    obtain ⟨c, ⟨steps, hc⟩, hgone⟩ := reaches_without projectID cutoff id _ db 0 rfl hid
    have hframe := (hsame steps).1
    rw [evictProjectTracesOlderThan, hc] at hframe
    -- the row is selected before, so it is there after, and is not
    have hstays : x ∈ c.db.promptRecords ++ c.db.logs := by
      have hkept : ∀ {rows rows' : List TraceRow},
          rows'.filter (fun x => decide (x.projectID ≠ projectID)) =
            rows.filter (fun x => decide (x.projectID ≠ projectID)) → x ∈ rows → x ∈ rows' := by
        intro rows rows' heq hmem
        have hsel : x ∈ rows.filter fun x => decide (x.projectID ≠ projectID) :=
          mem_filter.mpr ⟨hmem, decide_eq_true hother⟩
        rw [← heq] at hsel
        exact (mem_filter.mp hsel).1
      rcases mem_append.mp hx with hx | hx
      · exact mem_append_left _ (hkept hframe.promptRecords hx)
      · exact mem_append_right _ (hkept hframe.logs hx)
    exact hgone x hstays id htrace (mem_singleton_self id)
  · intro hshared steps
    have hstart : Safe db projectID cutoff { db } :=
      ⟨.refl _ _, .refl _ _, .refl _ _, .refl _ _, .refl _ _, rfl, forall_mem_nil _⟩
    have hsafe := iterate_inv (safe_step hshared) steps hstart
    refine ⟨hsafe.same fun project trace hd => ?_, fun id hprotected =>
      hsafe.same fun project trace hd => ?_⟩
    · simpa using hd.1
    · obtain ⟨-, i, htrace, hi⟩ := hd
      refine decide_eq_false fun h => hi.not_protected ?_
      rw [Option.mem_def, h.2, Option.some.injEq] at htrace
      exact htrace ▸ hprotected

/-- Two projects with a trace `t`; the second has a log line in it. -/
def sharedTrace : Database where
  spans := [⟨1, 1, some "t", ""⟩, ⟨2, 2, some "t", ""⟩]
  errorSamples := []
  promptRecords := []
  logs := [⟨1, 2, some "t", ""⟩]
  summaries := [⟨1, "t", false, 0, ""⟩, ⟨2, "t", false, 0, ""⟩]
  keyed := by
    unfold Keyed
    decide
  pins := []

/-- Evicting the trace of the first project takes the log line of the second. -/
theorem shared_trace_loses_log :
    (evictProjectTracesOlderThan 1 10 8 sharedTrace).pc = .done ∧
      ¬Same (fun project _ => decide (project ≠ 1)) sharedTrace
        (evictProjectTracesOlderThan 1 10 8 sharedTrace).db := by
  refine ⟨by decide +kernel, fun h => ?_⟩
  have hlogs := h.logs
  revert hlogs
  decide +kernel

end Spanbarn.Retention.ProjectTraces
