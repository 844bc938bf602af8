import Mathlib.Data.List.Basic
import Mathlib.Logic.Function.Basic
import Spanbarn.Schemes.Run

/-! The cut-over of a single-file database: moving the spans family into a file of its own.

    A start looks at main alone to choose the layout. With a spans table in main it is single-file, and
    the cut-over may copy the family away; without one it is split, and a finished copy that a stop
    left behind is renamed first.

        main has spans                          main has no spans
        migrate ─▶ remove leftovers ─▶ room     copy there? ─▶ marker? ─▶ rename
          ─▶ create ─▶ copy ─▶ mark ─▶ drop       ─▶ prepare the spans file ─▶ open split
          ─▶ rename ─▶ open split

    Every call of a start is one step that may answer with an error; removing a file ignores its error.
    A crash may come between any two steps. A database file is what its committed transactions say. -/

namespace Spanbarn.Storage
open List Spanbarn.Schemes

/-! ### Files -/

/-- The tables of the spans family. -/
inductive Table where
  | spans | traceSummaries | spansStaging | aggregates | errorSamples | errorExemplars
  | spanRollups | spanRollupCompaction | spanEdges
  deriving DecidableEq, Repr

/-- `FamilySpans.Tables()`. -/
def Table.all : List Table :=
  [.spans, .traceSummaries, .spansStaging, .aggregates, .errorSamples, .errorExemplars,
    .spanRollups, .spanRollupCompaction, .spanEdges]

theorem Table.mem_all (t : Table) : t ∈ Table.all := by cases t <;> decide

variable {Row : Type}

/-- The spans family as one file holds it, table by table in rowid order; `marker` is the table a
    finished copy carries. -/
structure File (Row : Type) where
  tables : Table → Option (List Row) := fun _ => none
  marker : Bool := false

/-- A migration creates the table unless it is there. -/
def File.create (f : File Row) (t : Table) : File Row :=
  { f with tables := Function.update f.tables t (some ((f.tables t).getD [])) }

/-- One INSERT. -/
def File.insert (f : File Row) (t : Table) (rows : List Row) : File Row :=
  { f with tables := Function.update f.tables t ((f.tables t).map (· ++ rows)) }

/-- `dropMovedTables`: all tables go in one transaction; unless they were copied, a table that holds
    rows is an error. -/
def dropMovedTables (main : File Row) (copied : Bool) : Option (File Row) :=
  if copied || Table.all.all fun t => ((main.tables t).getD []).isEmpty then
    some { main with tables := fun _ => none }
  else none

/-- How `copyTable` reads: in batches by rowid, or a table without rowids at once. -/
structure Config where
  batchRows : ℕ
  batchRows_pos : 0 < batchRows
  hasRowid : Table → Bool

/-- The rows of the next INSERT after the first `last`. -/
def Config.batch (c : Config) (t : Table) (rows : List Row) (last : ℕ) : List Row :=
  if c.hasRowid t then (rows.drop last).take c.batchRows else rows.drop last

/-! ### A start -/

/-- The file that holds the spans family for an open storage. -/
inductive Place where | main | spans
  deriving DecidableEq, Repr

/-- The call a start makes next. `abandonCopy` and `discardCopy` remove the temporary copy, after a
    failed copy and for a copy without its marker. -/
inductive Phase where
  | down
  | openMain (cutOver : Bool)
  | migrateMain (cutOver : Bool) (todo : List Table)
  | removeCopy
  | removeSpans
  | hasRoom
  | createCopy
  | migrateCopy (todo : List Table)
  | copyTable (todo : List Table) (last : ℕ)
  | copySequences
  | markCopy
  | recordCopy
  | checkpointCopy
  | dropTables
  | renameCopy
  | abandonCopy
  | statCopy
  | openCopy
  | discardCopy
  | finishRename
  | createSpans
  | migrateSpans (todo : List Table)
  | dropEmpty
  | openSplit
  | running (place : Place)
  deriving DecidableEq, Repr

/-- The three files, the process, and the rows ever committed. -/
structure System (Row : Type) where
  main : File Row
  copy : Option (File Row) := none
  spansFile : Option (File Row) := none
  phase : Phase := .down
  committed : Table → List Row

inductive Answer where | ok | error
  deriving DecidableEq, Repr

inductive Action (Row : Type) where
  | start (cutOver : Bool)
  | call (answer : Answer)
  | insert (t : Table) (rows : List Row)
  | crash
  deriving Repr

/-- `copyTable` for the first table left: the next batch, or the row counts once there is none. A
    table that main does not have is skipped. -/
def copyTable (c : Config) (s : System Row) (t : Table) (todo : List Table) (last : ℕ) :
    System Row :=
  match s.main.tables t with
  | none => { s with phase := .copyTable todo 0 }
  | some src =>
    match c.batch t src last with
    | [] =>
      if src.length = ((s.copy.bind fun f => f.tables t).getD []).length then
        { s with phase := .copyTable todo 0 }
      else { s with phase := .abandonCopy }
    | row :: rows => { s with
        copy := s.copy.map fun f => f.insert t (row :: rows)
        phase := .copyTable (t :: todo) (last + (row :: rows).length) }

/-- The calls that answer without an error. -/
def proceed (c : Config) (s : System Row) : Phase → System Row
  | .down => s
  | .openMain cutOver =>
    match s.main.tables .spans with
    | some _ => { s with phase := .migrateMain cutOver Table.all }
    | none => { s with phase := .statCopy }
  | .migrateMain cutOver (t :: todo) =>
    { s with main := s.main.create t, phase := .migrateMain cutOver todo }
  | .migrateMain cutOver [] => { s with phase := if cutOver then .removeCopy else .running .main }
  | .removeCopy => { s with copy := none, phase := .removeSpans }
  | .removeSpans => { s with spansFile := none, phase := .hasRoom }
  | .hasRoom => { s with phase := .createCopy }
  | .createCopy => { s with copy := some (s.copy.getD {}), phase := .migrateCopy Table.all }
  | .migrateCopy (t :: todo) =>
    { s with copy := s.copy.map fun f => f.create t, phase := .migrateCopy todo }
  | .migrateCopy [] => { s with phase := .copyTable Table.all 0 }
  | .copyTable (t :: todo) last => copyTable c s t todo last
  | .copyTable [] _ => { s with phase := .copySequences }
  | .copySequences => { s with phase := .markCopy }
  | .markCopy =>
    -- CREATE TABLE fails on a table that is there
    if (s.copy.map fun f => f.marker) = some true then { s with phase := .abandonCopy }
    else { s with copy := s.copy.map fun f => { f with marker := true }, phase := .recordCopy }
  | .recordCopy => { s with phase := .checkpointCopy }
  | .checkpointCopy => { s with phase := .dropTables }
  | .dropTables =>
    match dropMovedTables s.main true with
    | some main => { s with main, phase := .renameCopy }
    | none => { s with phase := .abandonCopy }
  | .renameCopy => { s with spansFile := s.copy, copy := none, phase := .openSplit }
  | .abandonCopy => { s with copy := none, phase := .running .main }
  | .statCopy => { s with phase := if s.copy.isSome then .openCopy else .createSpans }
  | .openCopy =>
    if (s.copy.map fun f => f.marker) = some true then { s with phase := .finishRename }
    else { s with phase := .discardCopy }
  | .discardCopy => { s with copy := none, phase := .createSpans }
  | .finishRename => { s with spansFile := s.copy, copy := none, phase := .createSpans }
  | .createSpans =>
    { s with spansFile := some (s.spansFile.getD {}), phase := .migrateSpans Table.all }
  | .migrateSpans (t :: todo) =>
    { s with spansFile := s.spansFile.map fun f => f.create t, phase := .migrateSpans todo }
  | .migrateSpans [] => { s with phase := .dropEmpty }
  | .dropEmpty =>
    match dropMovedTables s.main false with
    | some main => { s with main, phase := .openSplit }
    | none => { s with phase := .down }
  | .openSplit => { s with phase := .running .spans }
  | .running place => { s with phase := .running place }

/-- Where a start goes when a call answers with an error: a failed remove is ignored, a failed
    cut-over before the drop keeps the single-file layout, a failed stat reads as no file, and any
    other error ends the start. -/
def onError : Phase → Phase
  | .removeCopy => .removeSpans
  | .removeSpans => .hasRoom
  | .hasRoom => .running .main
  | .createCopy | .migrateCopy _ | .copyTable _ _ | .copySequences | .markCopy | .recordCopy
  | .checkpointCopy | .dropTables => .abandonCopy
  | .abandonCopy => .running .main
  | .statCopy => .createSpans
  | .discardCopy => .createSpans
  | .running place => .running place
  | _ => .down

/-- The selected file's handle writes. -/
def System.write (s : System Row) (place : Place) (t : Table) (rows : List Row) : System Row :=
  match place with
  | .main => { s with main := s.main.insert t rows }
  | .spans => { s with spansFile := s.spansFile.map fun f => f.insert t rows }

/-- One step: a start, the next call of a start, a committed insert of the running writer, a crash. -/
def step (c : Config) (s : System Row) : Action Row → Option (System Row)
  | .start cutOver =>
    match s.phase with
    | .down => some { s with phase := .openMain cutOver }
    | _ => none
  | .call answer =>
    match s.phase, answer with
    | .down, _ => none
    | .running _, _ => none
    | phase, .ok => some (proceed c s phase)
    | phase, .error => some { s with phase := onError phase }
  | .insert t rows =>
    match s.phase with
    | .running place => some { s.write place t rows with
        committed := Function.update s.committed t (s.committed t ++ rows) }
    | _ => none
  | .crash => some { s with phase := .down }

/-- A single-file database with a spans table and no other file. -/
def singleFile (spans : List Row) (others : Table → Option (List Row)) : System Row where
  main := { tables := Function.update others .spans (some spans) }
  committed t := (Function.update others .spans (some spans) t).getD []

/-- What an open storage reads as table `t`: an unqualified name resolves in main first, then in the
    attached spans file. -/
def System.visible (s : System Row) (place : Place) (t : Table) : Option (List Row) :=
  match place with
  | .main => s.main.tables t
  | .spans => (s.main.tables t).or (s.spansFile.bind fun f => f.tables t)

/-- The file of a place. -/
def System.file (s : System Row) : Place → Option (File Row)
  | .main => some s.main
  | .spans => s.spansFile

/-- The stat of the copy does not fail while the copy is there. -/
def StatAnswers (s : System Row) (a : Action Row) : Prop :=
  s.phase = .statCopy → a = .call .error → s.copy = none

instance (s : System Row) : ∀ a, Decidable (StatAnswers s a)
  | .call .error => decidable_of_iff (s.phase = .statCopy → s.copy.isNone)
      (by simp [StatAnswers, Option.isNone_iff_eq_none])
  | .call .ok | .start _ | .insert _ _ | .crash => isTrue nofun

/-! ### Where the rows are -/

/-- The file holds every committed row and nothing else. -/
def Holds (f : File Row) (rows : Table → List Row) : Prop := ∀ t, f.tables t = some (rows t)

/-- Main holds the rows, tables not yet created holding none. -/
structure OnMain (s : System Row) : Prop where
  rows : ∀ t, (s.main.tables t).getD [] = s.committed t
  spans : s.main.tables .spans ≠ none
  alone : s.spansFile = none

/-- Main has given the tables up and the marked copy holds the rows. -/
structure OnCopy (s : System Row) : Prop where
  gone : ∀ t, s.main.tables t = none
  copy : ∃ f, s.copy = some f ∧ f.marker = true ∧ Holds f s.committed
  alone : s.spansFile = none

/-- Main has given the tables up and the spans file holds the rows. -/
structure OnSpans (s : System Row) : Prop where
  gone : ∀ t, s.main.tables t = none
  noCopy : s.copy = none
  spans : ∃ f, s.spansFile = some f ∧ Holds f s.committed

/-- The rows are whole in one of the three places. -/
def Somewhere (s : System Row) : Prop := OnMain s ∨ OnCopy s ∨ OnSpans s

/-- How far the copy is when table by table `todo` is left and `last` rows of the first are over. -/
def Copied (f : File Row) (rows : Table → List Row) : List Table → ℕ → Prop
  | [], _ => Holds f rows
  | t :: todo, last =>
    (∃ before, f.tables t = some (before ++ (rows t).take last)) ∧
      (∀ u ∈ todo, f.tables u ≠ none) ∧ ∀ u, u ≠ t → u ∉ todo → f.tables u = some (rows u)

/-- What each call of a start finds. -/
def Inv (s : System Row) : Prop :=
  match s.phase with
  | .down | .openMain _ => Somewhere s
  | .migrateMain _ todo => OnMain s ∧ ∀ t ∉ todo, s.main.tables t ≠ none
  | .removeCopy | .removeSpans | .hasRoom | .createCopy | .abandonCopy | .running .main =>
    OnMain s ∧ Holds s.main s.committed
  | .migrateCopy todo => OnMain s ∧ Holds s.main s.committed ∧
    ∃ f, s.copy = some f ∧ ∀ t ∉ todo, f.tables t ≠ none
  | .copyTable todo last => OnMain s ∧ Holds s.main s.committed ∧
    ∃ f, s.copy = some f ∧ Copied f s.committed todo last
  | .copySequences | .markCopy => OnMain s ∧ Holds s.main s.committed ∧
    ∃ f, s.copy = some f ∧ Holds f s.committed
  | .recordCopy | .checkpointCopy | .dropTables => OnMain s ∧ Holds s.main s.committed ∧
    ∃ f, s.copy = some f ∧ f.marker = true ∧ Holds f s.committed
  | .renameCopy | .openCopy | .finishRename => OnCopy s
  | .statCopy => OnCopy s ∨ OnSpans s
  | .discardCopy => False
  | .createSpans | .migrateSpans _ | .dropEmpty | .openSplit | .running .spans => OnSpans s

/-! ### Every call keeps them -/

section Files
variable {f : File Row} {rows : Table → List Row}

theorem create_ne_none (t u : Table) (h : f.tables u ≠ none) : (f.create t).tables u ≠ none := by
  by_cases hu : u = t
  · subst hu; simp [File.create]
  · simpa [File.create, hu] using h

theorem create_self_ne_none (t : Table) : (f.create t).tables t ≠ none := by simp [File.create]

theorem create_getD (t u : Table) :
    ((f.create t).tables u).getD [] = (f.tables u).getD [] := by
  by_cases hu : u = t
  · subst hu; simp [File.create]
  · simp [File.create, hu]

/-- A table that holds what it should does so after a migration. -/
theorem Holds.create (h : Holds f rows) (t : Table) : Holds (f.create t) rows := by
  intro u
  by_cases hu : u = t
  · subst hu; simp [File.create, h u]
  · simpa [File.create, hu] using h u

theorem Holds.insert (h : Holds f rows) (t : Table) (new : List Row) :
    Holds (f.insert t new) (Function.update rows t (rows t ++ new)) := by
  intro u
  by_cases hu : u = t
  · subst hu; simp [File.insert, h u]
  · simpa [File.insert, hu] using h u

/-- The rows of a batch are the next ones. -/
theorem batch_take (c : Config) (t : Table) (src : List Row) (last : ℕ) :
    src.take last ++ c.batch t src last = src.take (last + (c.batch t src last).length) := by
  unfold Config.batch
  split
  · rw [take_add, length_take]
    congr 1
    rw [← take_take, take_length]
  · rw [take_append_drop, length_drop, take_of_length_le (by omega)]

/-- There is no next batch only when all rows are over. -/
theorem length_le_of_batch_nil {c : Config} {t : Table} {src : List Row} {last : ℕ}
    (h : c.batch t src last = []) : src.length ≤ last := by
  have hpos := c.batchRows_pos
  unfold Config.batch at h
  split at h
  · rcases take_eq_nil_iff.mp h with h | h
    · omega
    · exact drop_eq_nil_iff.mp h
  · exact drop_eq_nil_iff.mp h

/-- The copy of a table is complete when its batches are over and the counts match: nothing was in the
    table before. -/
theorem copied_next {t : Table} {todo : List Table} {last : ℕ}
    (h : Copied f rows (t :: todo) last) (hlast : (rows t).length ≤ last)
    (hcount : (rows t).length = ((f.tables t).getD []).length) : Copied f rows todo 0 := by
  obtain ⟨⟨before, ht⟩, hleft, hdone⟩ := h
  rw [take_of_length_le hlast] at ht
  have hbefore : before = [] := by
    rw [ht, Option.getD_some, length_append] at hcount
    exact eq_nil_of_length_eq_zero (by omega)
  subst hbefore
  have hall : ∀ u, u ∉ todo → f.tables u = some (rows u) := by
    intro u hu
    by_cases hut : u = t
    · rw [hut]; exact ht
    · exact hdone u hut hu
  cases todo with
  | nil => exact fun u => hall u not_mem_nil
  | cons v todo =>
    obtain ⟨old, hold⟩ := Option.ne_none_iff_exists'.mp (hleft v mem_cons_self)
    refine ⟨⟨old, by simpa using hold⟩, fun u hu => hleft u (mem_cons_of_mem _ hu), ?_⟩
    intro u hv hu
    exact hall u (by simp [hv, hu])

theorem copied_batch {c : Config} {t : Table} {todo : List Table} {last : ℕ}
    (h : Copied f rows (t :: todo) last) :
    Copied (f.insert t (c.batch t (rows t) last)) rows (t :: todo)
      (last + (c.batch t (rows t) last).length) := by
  obtain ⟨⟨before, ht⟩, hleft, hdone⟩ := h
  refine ⟨⟨before, ?_⟩, fun u hu => ?_, fun u hut hu => ?_⟩
  · simp [File.insert, ht, batch_take]
  · by_cases hut : u = t
    · subst hut; simp [File.insert, ht]
    · simpa [File.insert, hut] using hleft u hu
  · simpa [File.insert, hut] using hdone u hut hu

/-- A migrated copy is ready for the first table. -/
theorem copied_start (h : ∀ t, f.tables t ≠ none) : Copied f rows Table.all 0 := by
  refine ⟨?_, fun u _ => h u, fun u hu hmem => ?_⟩
  · obtain ⟨old, hold⟩ := Option.ne_none_iff_exists'.mp (h .spans)
    exact ⟨old, by simpa using hold⟩
  · have := Table.mem_all u
    simp only [Table.all, mem_cons] at this hmem
    tauto

end Files

section Calls
variable {c : Config} {s : System Row}

/-- Nothing but the copy and the phase changes while main holds the rows. -/
theorem OnMain.setCopy (h : OnMain s) (copy : Option (File Row)) (phase : Phase) :
    OnMain { s with copy, phase } := ⟨h.rows, h.spans, h.alone⟩

theorem OnCopy.setPhase (h : OnCopy s) (phase : Phase) : OnCopy { s with phase } :=
  ⟨h.gone, h.copy, h.alone⟩

theorem OnSpans.setPhase (h : OnSpans s) (phase : Phase) : OnSpans { s with phase } :=
  ⟨h.gone, h.noCopy, h.spans⟩

theorem Somewhere.setPhase (h : Somewhere s) (phase : Phase) : Somewhere { s with phase } :=
  h.imp (fun h => h.setCopy _ _) (Or.imp (fun h => h.setPhase _) fun h => h.setPhase _)

theorem dropMovedTables_copied (main : File Row) :
    dropMovedTables main true = some { main with tables := fun _ => none } := by
  simp [dropMovedTables]

theorem dropMovedTables_gone {main : File Row} (h : ∀ t, main.tables t = none) :
    dropMovedTables main false = some main := by
  have hmain : { main with tables := fun _ => none } = main := by
    obtain ⟨tables, marker⟩ := main
    exact congrArg (File.mk · marker) (funext fun t => (h t).symm)
  rw [dropMovedTables, if_pos, hmain]
  simp [h]

theorem holds_main (h : OnMain s) (hall : ∀ t, s.main.tables t ≠ none) :
    Holds s.main s.committed := by
  intro t
  obtain ⟨rows, hr⟩ := Option.ne_none_iff_exists'.mp (hall t)
  have := h.rows t
  rw [hr] at this
  rw [hr, ← this]
  rfl

theorem inv_openMain {cutOver : Bool} (h : Somewhere s) :
    Inv (proceed c s (.openMain cutOver)) := by
  rcases h with h | h | h
  · obtain ⟨rows, hr⟩ := Option.ne_none_iff_exists'.mp h.spans
    simp only [proceed, hr, Inv]
    exact ⟨h.setCopy _ _, fun t ht => absurd (Table.mem_all t) ht⟩
  · simp only [proceed, h.gone, Inv]
    exact .inl (h.setPhase _)
  · simp only [proceed, h.gone, Inv]
    exact .inr (h.setPhase _)

theorem inv_migrateMain {cutOver : Bool} {todo : List Table} (h : OnMain s)
    (hd : ∀ t ∉ todo, s.main.tables t ≠ none) :
    Inv (proceed c s (.migrateMain cutOver todo)) := by
  cases todo with
  | cons t todo =>
    simp only [proceed, Inv]
    refine ⟨⟨fun u => by simpa only [create_getD] using h.rows u, create_ne_none t _ h.spans,
      h.alone⟩, fun u hu => ?_⟩
    by_cases hut : u = t
    · rw [hut]; exact create_self_ne_none t
    · exact create_ne_none t u (hd u (by simp [hut, hu]))
  | nil =>
    have hall := holds_main h fun t => hd t not_mem_nil
    cases cutOver with
    | false | true => exact ⟨h.setCopy _ _, hall⟩

theorem inv_copyTable {todo : List Table} {last : ℕ} {f : File Row} (h : OnMain s)
    (hm : Holds s.main s.committed) (hf : s.copy = some f) (hc : Copied f s.committed todo last) :
    Inv (proceed c s (.copyTable todo last)) := by
  cases todo with
  | nil => exact ⟨h.setCopy _ _, hm, f, hf, hc⟩
  | cons t todo =>
    simp only [proceed, copyTable, hm t]
    cases hb : c.batch t (s.committed t) last with
    | nil =>
      simp only
      split
      · rename_i hcount
        rw [hf] at hcount
        exact ⟨h.setCopy _ _, hm, f, hf, copied_next hc (length_le_of_batch_nil hb) hcount⟩
      · exact ⟨h.setCopy _ _, hm⟩
    | cons row rows =>
      have := copied_batch (c := c) hc
      rw [hb] at this
      exact ⟨h.setCopy _ _, hm, _, by simp only [hf, Option.map_some], this⟩

theorem inv_dropTables {f : File Row} (h : OnMain s) (hf : s.copy = some f)
    (hmark : f.marker = true) (hrows : Holds f s.committed) :
    Inv (proceed c s .dropTables) := by
  simp only [proceed, dropMovedTables_copied, Inv]
  exact ⟨fun _ => rfl, ⟨f, hf, hmark, hrows⟩, h.alone⟩

/-- A rename moves the finished copy into place. -/
theorem OnCopy.renamed (h : OnCopy s) (phase : Phase) :
    OnSpans { s with spansFile := s.copy, copy := none, phase } := by
  obtain ⟨f, hf, -, hrows⟩ := h.copy
  exact ⟨h.gone, rfl, f, hf, hrows⟩

theorem OnSpans.mapSpans (h : OnSpans s) (phase : Phase) (g : File Row → File Row)
    (hg : ∀ f, Holds f s.committed → Holds (g f) s.committed) :
    OnSpans { s with spansFile := s.spansFile.map g, phase } := by
  obtain ⟨f, hf, hrows⟩ := h.spans
  exact ⟨h.gone, h.noCopy, g f, by simp only [hf, Option.map_some], hg f hrows⟩

/-- Calls that answer without an error keep the rows where they are, or move them whole. -/
theorem inv_proceed {phase : Phase} (hph : s.phase = phase) (h : Inv s) :
    Inv (proceed c s phase) := by
  simp only [Inv, hph] at h
  cases phase with
  | down => simpa only [proceed, Inv, hph] using h
  | openMain cutOver => exact inv_openMain h
  | migrateMain cutOver todo => exact inv_migrateMain h.1 h.2
  | removeCopy | hasRoom | copySequences | recordCopy | checkpointCopy | abandonCopy =>
    exact ⟨h.1.setCopy _ _, h.2⟩
  | removeSpans => exact ⟨⟨h.1.rows, h.1.spans, rfl⟩, h.2⟩
  | createCopy =>
    exact ⟨h.1.setCopy _ _, h.2, _, rfl, fun t ht => absurd (Table.mem_all t) ht⟩
  | migrateCopy todo =>
    obtain ⟨hm, hrows, f, hf, hd⟩ := h
    cases todo with
    | nil => exact ⟨hm.setCopy _ _, hrows, f, hf, copied_start fun t => hd t not_mem_nil⟩
    | cons t todo =>
      refine ⟨hm.setCopy _ _, hrows, f.create t, by simp only [proceed, hf, Option.map_some], ?_⟩
      intro u hu
      by_cases hut : u = t
      · rw [hut]; exact create_self_ne_none t
      · exact create_ne_none t u (hd u (by simp [hut, hu]))
  | copyTable todo last =>
    obtain ⟨hm, hrows, f, hf, hc⟩ := h
    exact inv_copyTable hm hrows hf hc
  | markCopy =>
    obtain ⟨hm, hrows, f, hf, hc⟩ := h
    simp only [proceed, hf, Option.map_some]
    split
    · exact ⟨hm.setCopy _ _, hrows⟩
    · exact ⟨hm.setCopy _ _, hrows, _, rfl, rfl, hc⟩
  | dropTables =>
    obtain ⟨hm, -, f, hf, hmark, hc⟩ := h
    exact inv_dropTables hm hf hmark hc
  | renameCopy | finishRename => exact h.renamed _
  | statCopy =>
    rcases h with h | h
    · obtain ⟨f, hf, -⟩ := h.copy
      rw [proceed, if_pos (by rw [hf]; rfl)]
      exact h.setPhase _
    · rw [proceed, if_neg (by rw [h.noCopy]; nofun)]
      exact h.setPhase _
  | openCopy =>
    obtain ⟨f, hf, hmark, -⟩ := h.copy
    rw [proceed, if_pos (by rw [hf, Option.map_some, hmark])]
    exact h.setPhase _
  | discardCopy => exact h.elim
  | createSpans =>
    obtain ⟨f, hf, -⟩ := h.spans
    have := h.mapSpans (.migrateSpans Table.all) id fun _ hr => hr
    simpa only [proceed, hf, Option.getD_some, Option.map_some, id, Inv] using this
  | migrateSpans todo =>
    cases todo with
    | nil => exact h.setPhase _
    | cons t todo => exact h.mapSpans _ _ fun _ hr => hr.create t
  | dropEmpty =>
    simp only [proceed, dropMovedTables_gone h.gone, Inv]
    exact h.setPhase _
  | openSplit => exact h.setPhase _
  | running place =>
    cases place with
    | main => exact ⟨h.1.setCopy _ _, h.2⟩
    | spans => exact h.setPhase _

/-- An error leaves the rows where they are and the next phase finds them there. -/
theorem inv_onError (hstat : s.phase = .statCopy → s.copy = none) (h : Inv s) :
    Inv { s with phase := onError s.phase } := by
  cases hph : s.phase with
  | statCopy =>
    simp only [Inv, hph] at h
    rcases h with h | h
    · obtain ⟨f, hf, -⟩ := h.copy
      rw [hstat hph] at hf
      simp at hf
    · exact h.setPhase _
  | running place =>
    simp only [Inv, hph] at h
    cases place with
    | main => exact ⟨h.1.setCopy _ _, h.2⟩
    | spans => exact h.setPhase _
  | down | openMain =>
    simp only [Inv, hph] at h
    exact h.setPhase _
  | migrateMain => simp only [Inv, hph] at h; exact .inl (h.1.setCopy _ _)
  | discardCopy => simp only [Inv, hph] at h
  | renameCopy | openCopy | finishRename =>
    simp only [Inv, hph] at h
    exact .inr (.inl (h.setPhase _))
  | createSpans | migrateSpans | dropEmpty | openSplit =>
    simp only [Inv, hph] at h
    exact .inr (.inr (h.setPhase _))
  | removeCopy | removeSpans | hasRoom | createCopy | abandonCopy =>
    simp only [Inv, hph] at h
    exact ⟨h.1.setCopy _ _, h.2⟩
  | migrateCopy | copyTable | copySequences | markCopy | recordCopy | checkpointCopy
  | dropTables =>
    simp only [Inv, hph] at h
    exact ⟨h.1.setCopy _ _, h.2.1⟩

/-- Wherever a start stands, the rows are in one of the three places. -/
theorem Inv.somewhere (h : Inv s) : Somewhere s := by
  unfold Inv at h
  split at h
  all_goals first
    | exact h
    | exact .inl h.1
    | exact .inr (.inl h)
    | exact .inr h
    | exact .inr (.inr h)
    | exact h.elim

theorem inv_insert {place : Place} (hph : s.phase = .running place) (h : Inv s) (t : Table)
    (rows : List Row) :
    Inv { s.write place t rows with
      committed := Function.update s.committed t (s.committed t ++ rows) } := by
  cases place with
  | main =>
    simp only [Inv, hph] at h
    have hnew := h.2.insert t rows
    simp only [Inv, System.write, hph]
    refine ⟨⟨fun u => ?_, ?_, h.1.alone⟩, hnew⟩
    · simp [hnew u]
    · simp [hnew .spans, reduceCtorEq]
  | spans =>
    simp only [Inv, hph] at h
    obtain ⟨f, hf, hrows⟩ := h.spans
    simp only [Inv, System.write, hph]
    exact ⟨h.gone, h.noCopy, f.insert t rows, by simp only [hf, Option.map_some],
      hrows.insert t rows⟩

theorem inv_step {s' : System Row} {a : Action Row} (h : Inv s) (hstat : StatAnswers s a)
    (hs : step c s a = some s') : Inv s' := by
  cases a with
  | start cutOver =>
    cases hph : s.phase <;> simp only [step, hph, reduceCtorEq, Option.some.injEq] at hs
    subst hs
    simp only [Inv, hph] at h
    exact h.setPhase _
  | crash =>
    simp only [step, Option.some.injEq] at hs
    subst hs
    exact h.somewhere.setPhase _
  | insert t rows =>
    cases hph : s.phase <;> simp only [step, hph, reduceCtorEq, Option.some.injEq] at hs
    subst hs
    exact inv_insert hph h t rows
  | call answer =>
    have hs' : s' = proceed c s s.phase ∨
        (answer = .error ∧ s' = { s with phase := onError s.phase }) := by
      cases answer <;> cases hph : s.phase <;>
        simp only [step, hph, reduceCtorEq, Option.some.injEq] at hs <;> simp [← hs]
    rcases hs' with rfl | ⟨rfl, rfl⟩
    · exact inv_proceed rfl h
    · exact inv_onError (fun hph => hstat hph rfl) h

end Calls

/-! ### Crash safety -/

/-- An open storage reads and writes one place, and that place holds every committed row: the name of
    a table resolves to it, and main does not shadow the spans file. -/
def Selected (s : System Row) : Prop :=
  ∀ place, s.phase = .running place → ∀ t,
    s.visible place t = some (s.committed t) ∧
    ((s.file place).bind fun f => f.tables t) = some (s.committed t) ∧
    (place = .spans → s.main.tables t = none)

/-- One of the files holds every committed row. -/
def CompleteCopy (s : System Row) : Prop :=
  ∃ f, (f = s.main ∨ s.copy = some f ∨ s.spansFile = some f) ∧
    ∀ t, (f.tables t).getD [] = s.committed t

theorem Inv.selected {s : System Row} (h : Inv s) : Selected s := by
  intro place hph t
  simp only [Inv, hph] at h
  cases place with
  | main => exact ⟨h.2 t, h.2 t, nofun⟩
  | spans =>
    obtain ⟨f, hf, hrows⟩ := h.spans
    have hfile : (s.spansFile.bind fun f => f.tables t) = some (s.committed t) := by
      rw [hf]
      exact hrows t
    exact ⟨by rw [System.visible, h.gone t, hfile]; rfl, hfile, fun _ => h.gone t⟩

theorem Inv.completeCopy {s : System Row} (h : Inv s) : CompleteCopy s := by
  rcases h.somewhere with h | h | h
  · exact ⟨s.main, .inl rfl, h.rows⟩
  · obtain ⟨f, hf, -, hrows⟩ := h.copy
    exact ⟨f, .inr (.inl hf), fun t => by rw [hrows t]; rfl⟩
  · obtain ⟨f, hf, hrows⟩ := h.spans
    exact ⟨f, .inr (.inr hf), fun t => by rw [hrows t]; rfl⟩

theorem inv_singleFile (spans : List Row) (others : Table → Option (List Row)) :
    Inv (singleFile spans others) :=
  .inl ⟨fun _ => rfl, by simp [singleFile], rfl⟩

/-- CORRECT for every sequence of starts, calls answering with or without an error, crashes and
    inserts in which the stat of the copy does not fail while the copy is there: an open storage works
    on one place that holds every row ever committed, and at every instant one file holds them all. -/
theorem cutover_crash_safe (c : Config) (spans : List Row) (others : Table → Option (List Row))
    (acts : List (Action Row)) (s : System Row)
    (hstat : Meets (step c) StatAnswers (singleFile spans others) acts)
    (h : run (step c) (singleFile spans others) acts = some s) :
    Selected s ∧ CompleteCopy s := by
  have hI : Inv s := inv_run_meets (fun _ _ _ hI hC hs => inv_step hI hC hs)
    (inv_singleFile spans others) hstat h
  exact ⟨hI.selected, hI.completeCopy⟩

/-! ### A stat that fails -/

/-- Calls that answer without an error. -/
def calls (n : ℕ) : List (Action ℕ) := List.replicate n (.call .ok)

/-- A cut-over that stops between the drop and the rename. -/
def stopAfterDrop : List (Action ℕ) := [.start true] ++ calls 41 ++ [.crash]

/-- The next start cannot stat the copy and opens a new spans file. -/
def statFails : List (Action ℕ) :=
  stopAfterDrop ++ [.start true] ++ calls 1 ++ [.call .error] ++ calls 13

/-- The writer inserts a row, and the start after that finishes the cut-over. -/
def restart : List (Action ℕ) := [.insert .spans [2], .crash, .start true] ++ calls 17

def smallBatches : Config where
  batchRows := 1
  batchRows_pos := by decide
  hasRowid _ := true

theorem failed_stat_hides_copy :
    ∃ s s', run (step smallBatches) (singleFile [1] fun _ => none) statFails = some s ∧
      s.phase = .running .spans ∧ s.committed .spans = [1] ∧ s.visible .spans .spans = some [] ∧
      ¬Selected s ∧
      run (step smallBatches) s restart = some s' ∧ s'.committed .spans = [1, 2] ∧
      s'.visible .spans .spans = some [1] ∧ ¬CompleteCopy s' := by
  refine ⟨_, _, rfl, rfl, rfl, rfl, fun h => ?_, rfl, rfl, rfl, fun h => ?_⟩
  · have := (h .spans rfl .spans).1
    revert this
    decide
  · obtain ⟨f, hf, hrows⟩ := h
    have := hrows .spans
    rcases hf with rfl | hf | hf
    · revert this; decide
    · revert hf; nofun
    · obtain rfl := Option.some.inj hf
      revert this
      decide

/-- The same stop, finished by the next start. -/
theorem cutover_crash_safe_finished :
    ∃ s, run (step smallBatches) (singleFile [1] fun _ => none)
        (stopAfterDrop ++ [.start false] ++ calls 17) = some s ∧
      s.phase = .running .spans ∧ s.visible .spans .spans = some [1] ∧
      Selected s ∧ CompleteCopy s :=
  ⟨_, rfl, rfl, rfl, cutover_crash_safe smallBatches [1] (fun _ => none)
    (stopAfterDrop ++ [.start false] ++ calls 17) _ (by decide) rfl⟩

end Spanbarn.Storage
