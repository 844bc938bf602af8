import Mathlib.Data.List.Basic
import Mathlib.Data.List.Nodup
import Mathlib.Data.List.Sort
import Mathlib.Logic.Function.Basic
import Spanbarn.Model.SpanRecord
import Spanbarn.Model.Time

/-! How a staging flush cuts what it has read into commits.

    Replayed copies of a span are dropped first; what is left is classified; then traces are packed, in
    the order they became ready, into chunks of at most `maxRows` rows (a staged row, plus the stored
    copy of a kept one), and a trace that is over the cap by itself is cut into parts:

        read rows ─ dropReplayedSpans ─▶ one row per span ─ classify ─▶ kept
                                                │                         │
                                                └── stagingChunks ────────┘
                                                whole traces │ parts of one trace

    A whole-trace chunk names its trace ids. A part names its rows by staging id, and the replayed
    copies of those rows join them. -/

namespace Spanbarn.Staging
open List Spanbarn.Model

/-- A row of `spans_staging`, and of the spans table once it is stored. `inline` says that the row came
    to the spans table without a time: its text there is the database's own. -/
structure Span where
  id : ℕ
  record : SpanRecord
  ingestedAt : ℤ := 0
  expiresAt : Option ℤ := none
  durable : Bool := false
  inline : Bool := false
  deriving DecidableEq, Repr

/-- `CURRENT_TIMESTAMP`: whole seconds. -/
def currentTimestamp (now : ℤ) : ℤ := now - now % secondNanos

/-- A row of an inline insert. -/
def Span.stamped (now : ℤ) (s : Span) : Span :=
  { s with ingestedAt := currentTimestamp now, inline := true }

/-- `ingested_at < ?` in the spans table. -/
def Span.before (s : Span) (t : ℤ) : Bool := textBefore s.inline s.ingestedAt t

def Span.traceID (s : Span) : String := s.record.traceID

/-! ### Replayed copies -/

/-- The key of a span: project, trace and span id. -/
def Span.key (s : Span) : ℤ × String × String :=
  (s.record.projectID, s.record.traceID, s.record.spanID)

/-- The rows kept, and the ids of the rows dropped by the id of the row kept for them. -/
structure Deduped where
  unique : List Span
  replayed : ℕ → List ℕ

/-- The loop of `dropReplayedSpans`, from the keys seen so far. -/
def dropReplayedFrom (kept : ℤ × String × String → Option ℕ) (replayed : ℕ → List ℕ) :
    List Span → Deduped
  | [] => ⟨[], replayed⟩
  | s :: rest =>
    if s.record.spanID = "" then
      let r := dropReplayedFrom kept replayed rest
      { r with unique := s :: r.unique }
    else
      match kept s.key with
      | none =>
        let r := dropReplayedFrom (Function.update kept s.key (some s.id)) replayed rest
        { r with unique := s :: r.unique }
      | some first =>
        dropReplayedFrom kept (Function.update replayed first (replayed first ++ [s.id])) rest

/-- One staged row per project, trace and span id; a span without a span id is always kept. -/
def dropReplayedSpans (spans : List Span) : Deduped :=
  dropReplayedFrom (fun _ => none) (fun _ => []) spans

/-! ### Chunks -/

/-- The rows one part names, for one trace. -/
structure TracePart where
  projectID : ℤ
  traceID : String
  stagedIDs : List ℕ := []
  refresh : Bool := false
  deriving DecidableEq, Repr

/-- What one commit moves: whole traces, or one part of a trace. -/
structure Chunk where
  traceIDs : List String := []
  spans : List Span := []
  interesting : List Span := []
  rows : ℕ := 0
  part : Option TracePart := none
  deriving DecidableEq, Repr

/-- The spans of one trace, `spansByTrace`. -/
def ofTrace (id : String) (spans : List Span) : List Span := spans.filter (·.traceID = id)

/-- An empty part for the trace of this span. -/
def newTracePart (s : Span) : Chunk :=
  { traceIDs := [s.traceID]
    part := some { projectID := s.record.projectID, traceID := s.traceID } }

/-- An entry of the map of kept spans. -/
def setByID (m : ℕ → Option Span) (s : Span) : ℕ → Option Span :=
  Function.update m s.id (some s)

/-- Kept spans by id; the last one of an id stays. -/
def byID (kept : List Span) : ℕ → Option Span := kept.foldl setByID fun _ => none

/-- The staging ids a part names. -/
def Chunk.stagedIDs (c : Chunk) : List ℕ := (c.part.map TracePart.stagedIDs).getD []

/-- A staged row joins a part, with its kept copy when it has one. -/
def Chunk.push (c : Chunk) (s : Span) (k : Option Span) : Chunk :=
  { c with
    spans := c.spans ++ [s]
    interesting := c.interesting ++ k.toList
    rows := c.rows + (1 + k.toList.length)
    part := c.part.map fun p => { p with stagedIDs := p.stagedIDs ++ [s.id] } }

/-- The last part takes the kept spans without a staged row, and refreshes the trace's structure when
    the trace stores any span. -/
def Chunk.last (c : Chunk) (kept : List Span) (keptByID : ℕ → Option Span) : Chunk :=
  let left := kept.filter fun s => (keptByID s.id).isSome
  { c with
    interesting := c.interesting ++ left
    rows := c.rows + left.length
    part := c.part.map fun p => { p with refresh := !kept.isEmpty } }

/-- The loop of `traceParts` over the staged rows left. -/
def partsFrom (maxRows : ℕ) (kept : List Span) (keptByID : ℕ → Option Span) (cur : Chunk) :
    List Span → List Chunk
  | [] => [cur.last kept keptByID]
  | s :: rest =>
    let k := keptByID s.id
    let keptByID := Function.update keptByID s.id none
    if cur.stagedIDs ≠ [] ∧ maxRows < cur.rows + (1 + k.toList.length) then
      cur :: partsFrom maxRows kept keptByID ((newTracePart s).push s k) rest
    else partsFrom maxRows kept keptByID (cur.push s k) rest

/-- One trace over the cap, cut in staging id order. -/
def traceParts (staged kept : List Span) (maxRows : ℕ) : List Chunk :=
  match staged.insertionSort (fun a b => a.id ≤ b.id) with
  | [] => []
  | s :: rest => partsFrom maxRows kept (byID kept) (newTracePart s) (s :: rest)

/-- A whole trace joins a chunk. -/
def Chunk.addTrace (c : Chunk) (id : String) (staged kept : List Span) : Chunk :=
  { c with
    traceIDs := c.traceIDs ++ [id]
    spans := c.spans ++ staged
    interesting := c.interesting ++ kept
    rows := c.rows + (staged.length + kept.length) }

/-- The next trace does not fit into the chunk at hand, or is over the cap itself. -/
def Chunk.full (c : Chunk) (rows maxRows : ℕ) : Bool :=
  !c.traceIDs.isEmpty && (decide (maxRows < c.rows + rows) || decide (maxRows < rows))

/-- The loop of `stagingChunks` over the trace ids left. -/
def chunksFrom (spans interesting : List Span) (maxRows : ℕ) (cur : Chunk) :
    List String → List Chunk
  | [] => if cur.traceIDs ≠ [] then [cur] else []
  | id :: rest =>
    let staged := ofTrace id spans
    let kept := ofTrace id interesting
    let rows := staged.length + kept.length
    let out := if cur.full rows maxRows then [cur] else []
    let cur := if cur.full rows maxRows then {} else cur
    if maxRows < rows then
      out ++ traceParts staged kept maxRows ++ chunksFrom spans interesting maxRows cur rest
    else out ++ chunksFrom spans interesting maxRows (cur.addTrace id staged kept) rest

/-- Cut a flush into chunks of whole traces, and a trace over the cap into parts. -/
def stagingChunks (traceIDs : List String) (spans interesting : List Span) (maxRows : ℕ) :
    List Chunk :=
  chunksFrom spans interesting maxRows {} traceIDs

/-- Rows of one commit. -/
def stagingChunkRows : ℕ := 300

/-- The dropped copies of a part's rows leave with them. -/
def Chunk.addReplayedRows (c : Chunk) (replayed : ℕ → List ℕ) : Chunk :=
  { c with part := c.part.map fun p =>
      { p with stagedIDs := p.stagedIDs ++ c.spans.flatMap fun s => replayed s.id } }

/-! ### What replay dropping keeps -/

/-- A dropped copy: same key as the row kept, which has a span id. -/
structure Replays (first s : Span) : Prop where
  key : first.key = s.key
  named : s.record.spanID ≠ ""

/-- What the loop has to know of the rows before: the keys and dropped ids it carries are theirs. -/
structure Seen (before unique : List Span) (kept : ℤ × String × String → Option ℕ)
    (replayed : ℕ → List ℕ) : Prop where
  first : ∀ {k i}, kept k = some i → ∃ f ∈ unique, f.id = i ∧ f.key = k
  dropped : ∀ {i j}, j ∈ replayed i → ∃ f ∈ unique, f.id = i ∧ ∃ s ∈ before, s.id = j ∧ Replays f s

theorem seen_nil : Seen [] [] (fun _ => none) fun _ => [] :=
  ⟨fun h => by simp at h, fun h => by simp at h⟩

variable {i : ℕ}

section seen
variable {before unique rest : List Span} {kept : ℤ × String × String → Option ℕ}
  {replayed : ℕ → List ℕ} {s : Span}

/-- A row that is kept, its key entered or not. -/
theorem Seen.keep (h : Seen before unique kept replayed)
    {kept' : ℤ × String × String → Option ℕ}
    (hkept : ∀ k i, kept' k = some i → kept k = some i ∨ k = s.key ∧ i = s.id) :
    Seen (before ++ [s]) (unique ++ [s]) kept' replayed := by
  refine ⟨fun {k i} hk => ?_, fun hj => ?_⟩
  · rcases hkept k i hk with hk | ⟨rfl, rfl⟩
    · obtain ⟨f, hf, hfk⟩ := h.first hk
      exact ⟨f, mem_append_left _ hf, hfk⟩
    · exact ⟨s, by simp, rfl, rfl⟩
  · obtain ⟨f, hf, hi, x, hx, hxj, hr⟩ := h.dropped hj
    exact ⟨f, mem_append_left _ hf, hi, x, mem_append_left _ hx, hxj, hr⟩

/-- The ids recorded once `j` joins those of `first`. -/
theorem mem_record {first j k : ℕ} :
    j ∈ Function.update replayed first (replayed first ++ [k]) i ↔
      j ∈ replayed i ∨ i = first ∧ j = k := by
  by_cases hi : i = first
  · subst hi
    rw [Function.update_self, mem_append, mem_singleton]
    exact or_congr_right (by simp)
  · rw [Function.update_of_ne hi]
    simp [hi]

/-- A row that is dropped joins the copies of the first row of its key. -/
theorem Seen.drop (h : Seen before unique kept replayed) {f : Span} (hf : f ∈ unique)
    (hrep : Replays f s) :
    Seen (before ++ [s]) unique kept (Function.update replayed f.id (replayed f.id ++ [s.id])) := by
  refine ⟨h.first, fun {i j} hj => ?_⟩
  rcases mem_record.mp hj with hj | ⟨rfl, rfl⟩
  · obtain ⟨g, hg, hgi, x, hx, hxj, hr⟩ := h.dropped hj
    exact ⟨g, hg, hgi, x, mem_append_left _ hx, hxj, hr⟩
  · exact ⟨f, hf, rfl, s, by simp, rfl, hrep⟩

/-- What the loop makes of the rows left: every row is kept or recorded as a copy of a kept one, what
    was recorded stays, and only copies are recorded. -/
structure Drops (before unique rest : List Span) (replayed : ℕ → List ℕ) (r : Deduped) : Prop where
  every : ∀ x ∈ rest, x ∈ r.unique ∨
    ∃ f ∈ unique ++ r.unique, x.id ∈ r.replayed f.id ∧ Replays f x
  stays : ∀ i, ∀ j ∈ replayed i, j ∈ r.replayed i
  only : ∀ i, ∀ j ∈ r.replayed i, ∃ f ∈ unique ++ r.unique, f.id = i ∧
    ∃ x ∈ before ++ rest, x.id = j ∧ Replays f x

variable {r : Deduped}

theorem Drops.keep (h : Drops (before ++ [s]) (unique ++ [s]) rest replayed r) :
    Drops before unique (s :: rest) replayed { r with unique := s :: r.unique } := by
  have hevery := h.every
  have honly := h.only
  simp only [append_assoc, singleton_append] at hevery honly
  refine ⟨fun x hx => ?_, h.stays, honly⟩
  rcases mem_cons.mp hx with rfl | hx
  · exact .inl mem_cons_self
  · exact (hevery x hx).imp (mem_cons_of_mem _) id

theorem Drops.drop {f : Span} (hf : f ∈ unique) (hrep : Replays f s)
    (h : Drops (before ++ [s]) unique rest
      (Function.update replayed f.id (replayed f.id ++ [s.id])) r) :
    Drops before unique (s :: rest) replayed r := by
  have honly := h.only
  simp only [append_assoc, singleton_append] at honly
  refine ⟨fun x hx => ?_, fun i j hj => h.stays i j (mem_record.mpr (.inl hj)), honly⟩
  rcases mem_cons.mp hx with rfl | hx
  · exact .inr ⟨f, mem_append_left _ hf, h.stays _ _ (mem_record.mpr (.inr ⟨rfl, rfl⟩)), hrep⟩
  · exact h.every x hx

end seen

theorem dropReplayedFrom_spec : ∀ (rest : List Span) {before unique : List Span}
    {kept : ℤ × String × String → Option ℕ} {replayed : ℕ → List ℕ},
    Seen before unique kept replayed →
    Drops before unique rest replayed (dropReplayedFrom kept replayed rest)
  | [], before, unique, kept, replayed, h => by
    rw [dropReplayedFrom]
    refine ⟨forall_mem_nil _, fun _ _ hj => hj, fun i j hj => ?_⟩
    rw [append_nil, append_nil]
    exact h.dropped hj
  | s :: rest, before, unique, kept, replayed, h => by
    rw [dropReplayedFrom]
    split
    · exact (dropReplayedFrom_spec rest (h.keep fun _ _ => .inl)).keep
    · rename_i hnamed
      cases hk : kept s.key with
      | none =>
        refine (dropReplayedFrom_spec rest (h.keep fun k i hki => ?_)).keep
        by_cases hks : k = s.key
        · rw [hks, Function.update_self, Option.some.injEq] at hki
          exact .inr ⟨hks, hki.symm⟩
        · rw [Function.update_of_ne hks] at hki
          exact .inl hki
      | some first =>
        obtain ⟨f, hf, rfl, hfk⟩ := h.first hk
        exact (dropReplayedFrom_spec rest (h.drop hf ⟨hfk, hnamed⟩)).drop hf ⟨hfk, hnamed⟩

variable {s : Span}

variable {spans kept : List Span}

/-- A row the flush read is kept or a copy of a kept one. -/
theorem mem_unique_or_replayed (h : s ∈ spans) :
    s ∈ (dropReplayedSpans spans).unique ∨ ∃ f ∈ (dropReplayedSpans spans).unique,
      s.id ∈ (dropReplayedSpans spans).replayed f.id ∧ Replays f s :=
  (dropReplayedFrom_spec spans seen_nil).every s h

theorem dropReplayedFrom_sublist : ∀ (rest : List Span) (kept : ℤ × String × String → Option ℕ)
    (replayed : ℕ → List ℕ), (dropReplayedFrom kept replayed rest).unique.Sublist rest
  | [], _, _ => .slnil
  | s :: rest, kept, replayed => by
    rw [dropReplayedFrom]
    split
    · exact (dropReplayedFrom_sublist rest ..).cons_cons s
    · cases kept s.key with
      | none => exact (dropReplayedFrom_sublist rest ..).cons_cons s
      | some first => exact (dropReplayedFrom_sublist rest ..).cons s

theorem unique_sublist (spans : List Span) : (dropReplayedSpans spans).unique.Sublist spans :=
  dropReplayedFrom_sublist spans ..

theorem unique_subset (h : s ∈ (dropReplayedSpans spans).unique) : s ∈ spans :=
  (unique_sublist spans).subset h

/-- An id recorded as a copy is that of a row the flush read, a copy of the row it is recorded for. -/
theorem replayed_spec {j : ℕ} (h : j ∈ (dropReplayedSpans spans).replayed i) :
    ∃ f ∈ (dropReplayedSpans spans).unique, f.id = i ∧ ∃ s ∈ spans, s.id = j ∧ Replays f s :=
  (dropReplayedFrom_spec spans seen_nil).only i j h

/-! ### What a chunk holds -/

theorem byID_foldl_of_not_mem (h : i ∉ kept.map Span.id) (m : ℕ → Option Span) :
    kept.foldl setByID m i = m i := by
  induction kept generalizing m with
  | nil => rfl
  | cons s kept ih =>
    rw [map_cons, mem_cons, not_or] at h
    rw [foldl_cons, ih h.2, setByID, Function.update_of_ne h.1]

/-- With distinct ids every kept span is found by its id. -/
theorem byID_of_mem (hnd : (kept.map Span.id).Nodup) {k : Span} (hk : k ∈ kept) :
    byID kept k.id = some k := by
  have main : ∀ (l : List Span) (m : ℕ → Option Span), (l.map Span.id).Nodup → k ∈ l →
      l.foldl setByID m k.id = some k := by
    intro l
    induction l with
    | nil => intro m _ h; simp at h
    | cons s l ih =>
      intro m hnd hmem
      rw [map_cons, nodup_cons] at hnd
      rw [foldl_cons]
      rcases mem_cons.mp hmem with rfl | hmem
      · rw [byID_foldl_of_not_mem hnd.1, setByID, Function.update_self]
      · exact ih _ hnd.2 hmem
  exact main kept _ hnd hk

/-- What is said of a part of a trace: its rows are staged ones of the trace, named by their ids, and
    the kept copy of each is in it. -/
structure PartOf (id : String) (staged kept : List Span) (c : Chunk) : Prop where
  part : ∃ p, c.part = some p ∧ p.traceID = id ∧ p.stagedIDs = c.spans.map Span.id
  staged : ∀ s ∈ c.spans, s ∈ staged
  stored : ∀ s ∈ c.spans, ∀ k ∈ kept, k.id = s.id → k ∈ c.interesting

variable {id : String} {staged : List Span} {c : Chunk}

theorem PartOf.push (h : PartOf id staged kept c) (hs : s ∈ staged) {k : Option Span}
    (hk : ∀ x ∈ kept, x.id = s.id → k = some x) : PartOf id staged kept (c.push s k) := by
  obtain ⟨p, hp, hid, hids⟩ := h.part
  refine ⟨⟨{ p with stagedIDs := p.stagedIDs ++ [s.id] }, ?_, hid, ?_⟩, fun x hx => ?_,
    fun x hx y hy hxy => ?_⟩
  · simp [Chunk.push, hp]
  · simp [Chunk.push, hids]
  · rcases mem_append.mp hx with hx | hx
    · exact h.staged x hx
    · rw [mem_singleton.mp hx]; exact hs
  · rcases mem_append.mp hx with hx | hx
    · exact mem_append_left _ (h.stored x hx y hy hxy)
    · rw [mem_singleton.mp hx] at hxy
      exact mem_append_right _ (by simp [hk y hy hxy])

theorem PartOf.last (h : PartOf id staged kept c) (m : ℕ → Option Span) :
    PartOf id staged kept (c.last kept m) := by
  obtain ⟨p, hp, hid, hids⟩ := h.part
  refine ⟨⟨{ p with refresh := !kept.isEmpty }, ?_, hid, hids⟩, h.staged, fun x hx y hy hxy => ?_⟩
  · simp [Chunk.last, hp]
  · exact mem_append_left _ (h.stored x hx y hy hxy)

theorem partOf_new (s : Span) : PartOf s.traceID staged kept (newTracePart s) :=
  ⟨⟨_, rfl, rfl, rfl⟩, forall_mem_nil _, forall_mem_nil _⟩

variable {maxRows : ℕ}

theorem partsFrom_spec :
    ∀ (rest : List Span) {m : ℕ → Option Span} {cur : Chunk}, PartOf id staged kept cur →
      (rest.map Span.id).Nodup → (∀ s ∈ rest, s ∈ staged ∧ s.traceID = id) →
      (∀ s ∈ rest, ∀ k ∈ kept, k.id = s.id → m s.id = some k) →
      ∀ c ∈ partsFrom maxRows kept m cur rest, PartOf id staged kept c
  | [], m, cur, hcur, _, _, _ => by
    intro c hc
    rw [partsFrom, mem_singleton] at hc
    rw [hc]
    exact hcur.last m
  | s :: rest, m, cur, hcur, hnd, hst, hm => by
    rw [map_cons, nodup_cons] at hnd
    have hs := hst s mem_cons_self
    have hks : ∀ x ∈ kept, x.id = s.id → m s.id = some x := hm s mem_cons_self
    have hrest : ∀ x ∈ rest, x ∈ staged ∧ x.traceID = id :=
      fun x hx => hst x (mem_cons_of_mem _ hx)
    -- the row's own entry is deleted; the entries of the rows left are still there
    have hm' : ∀ x ∈ rest, ∀ k ∈ kept, k.id = x.id →
        Function.update m s.id none x.id = some k := by
      intro x hx k hk hkx
      have hne : x.id ≠ s.id := fun he => hnd.1 (he ▸ mem_map_of_mem hx)
      rw [Function.update_of_ne hne]
      exact hm x (mem_cons_of_mem _ hx) k hk hkx
    intro c hc
    simp only [partsFrom] at hc
    split at hc
    · rcases mem_cons.mp hc with rfl | hc
      · exact hcur
      · have hnew : PartOf id staged kept (newTracePart s) := hs.2 ▸ partOf_new s
        exact partsFrom_spec rest (hnew.push hs.1 hks) hnd.2 hrest hm' c hc
    · exact partsFrom_spec rest (hcur.push hs.1 hks) hnd.2 hrest hm' c hc

/-- The parts of a trace are cut from its rows in id order. -/
theorem traceParts_cases (staged kept : List Span) (maxRows : ℕ) :
    staged = [] ∧ traceParts staged kept maxRows = [] ∨ ∃ s rest, (s :: rest).Perm staged ∧
      traceParts staged kept maxRows =
        partsFrom maxRows kept (byID kept) (newTracePart s) (s :: rest) := by
  have hperm := perm_insertionSort (fun a b : Span => a.id ≤ b.id) staged
  unfold traceParts
  cases hsort : staged.insertionSort (fun a b => a.id ≤ b.id) with
  | nil => exact .inl ⟨nil_perm.mp (hsort ▸ hperm), rfl⟩
  | cons s rest => exact .inr ⟨s, rest, hsort ▸ hperm, rfl⟩

theorem traceParts_spec (hnd : (staged.map Span.id).Nodup) (hkd : (kept.map Span.id).Nodup)
    (hid : ∀ s ∈ staged, s.traceID = id) :
    ∀ c ∈ traceParts staged kept maxRows, PartOf id staged kept c := by
  rcases traceParts_cases staged kept maxRows with ⟨-, heq⟩ | ⟨s, rest, hperm, heq⟩ <;> rw [heq]
  · exact forall_mem_nil _
  · have hmem : ∀ x ∈ s :: rest, x ∈ staged ∧ x.traceID = id := fun x hx =>
      ⟨hperm.subset hx, hid x (hperm.subset hx)⟩
    have hnew : PartOf id staged kept (newTracePart s) :=
      (hmem s mem_cons_self).2 ▸ partOf_new s
    exact partsFrom_spec (s :: rest) hnew ((hperm.map Span.id).nodup_iff.mpr hnd) hmem
      fun x _ k hk hkx => hkx ▸ byID_of_mem hkd hk

/-- What is said of a whole-trace chunk: it holds all rows and all kept spans of its traces. -/
structure WholeOf (ids : List String) (spans interesting : List Span) (c : Chunk) : Prop where
  part : c.part = none
  ids : ∀ id ∈ c.traceIDs, id ∈ ids
  spans : c.spans = c.traceIDs.flatMap fun id => ofTrace id spans
  interesting : c.interesting = c.traceIDs.flatMap fun id => ofTrace id interesting

/-- A chunk of a flush: whole traces, or a part of one of its traces. -/
def ChunkOf (ids : List String) (spans interesting : List Span) (c : Chunk) : Prop :=
  WholeOf ids spans interesting c ∨ ∃ id, PartOf id (ofTrace id spans) (ofTrace id interesting) c

/-! ### How the traces are packed -/

/-- What `chunksFrom` does with the ids left: it emits the chunk at hand, cuts a trace over the cap
    into parts, or adds the trace to the chunk. -/
inductive Packs (spans interesting : List Span) (maxRows : ℕ) :
    Chunk → List String → List Chunk → Prop
  | done {cur} : cur.traceIDs = [] → Packs spans interesting maxRows cur [] []
  | emit {cur ids out} : Packs spans interesting maxRows {} ids out →
      Packs spans interesting maxRows cur ids (cur :: out)
  | split {cur id rest out} : cur.traceIDs = [] → Packs spans interesting maxRows cur rest out →
      Packs spans interesting maxRows cur (id :: rest)
        (traceParts (ofTrace id spans) (ofTrace id interesting) maxRows ++ out)
  | add {cur id rest out} :
      (ofTrace id spans).length + (ofTrace id interesting).length ≤ maxRows →
      (cur.traceIDs = [] ∨
        cur.rows + ((ofTrace id spans).length + (ofTrace id interesting).length) ≤ maxRows) →
      Packs spans interesting maxRows
        (cur.addTrace id (ofTrace id spans) (ofTrace id interesting)) rest out →
      Packs spans interesting maxRows cur (id :: rest) out

section packs
variable {all : List String} {spans interesting : List Span} {maxRows : ℕ}

/-- A chunk that is not full is empty, or has room for the trace. -/
theorem Chunk.full_eq_false {rows : ℕ} (h : c.full rows maxRows = false) :
    c.traceIDs = [] ∨ c.rows + rows ≤ maxRows ∧ rows ≤ maxRows := by
  simpa [Chunk.full, or_iff_not_imp_left] using h

theorem chunksFrom_packs : ∀ (ids : List String) (cur : Chunk),
    Packs spans interesting maxRows cur ids (chunksFrom spans interesting maxRows cur ids)
  | [], cur => by
    rw [chunksFrom]
    split
    · exact .emit (.done rfl)
    · rename_i h
      exact .done (not_not.mp h)
  | id :: rest, cur => by
    simp only [chunksFrom]
    split
    -- the trace is over the cap
    · rename_i hover
      cases hfull : cur.full _ maxRows with
      | true => exact .emit (.split rfl (chunksFrom_packs rest {}))
      | false =>
        have hidle := (Chunk.full_eq_false hfull).resolve_right fun h => (not_lt.mpr h.2) hover
        exact .split hidle (chunksFrom_packs rest cur)
    · rename_i hfits
      cases hfull : cur.full _ maxRows with
      | true => exact .emit (.add (not_lt.mp hfits) (.inl rfl) (chunksFrom_packs rest _))
      | false =>
        have hroom := (Chunk.full_eq_false hfull).imp_right And.left
        exact .add (not_lt.mp hfits) hroom (chunksFrom_packs rest _)

theorem wholeOf_empty : WholeOf all spans interesting {} := ⟨rfl, forall_mem_nil _, rfl, rfl⟩

theorem WholeOf.addTrace (h : WholeOf all spans interesting c) (hid : id ∈ all) :
    WholeOf all spans interesting (c.addTrace id (ofTrace id spans) (ofTrace id interesting)) := by
  refine ⟨h.part, fun x hx => ?_, by simp [Chunk.addTrace, h.spans],
    by simp [Chunk.addTrace, h.interesting]⟩
  rcases mem_append.mp hx with hx | hx
  · exact h.ids x hx
  · rwa [mem_singleton.mp hx]

variable {cur : Chunk} {ids : List String} {out : List Chunk}

/-- What is packed: whole traces, or parts of one of the traces. -/
theorem Packs.mem (h : Packs spans interesting maxRows cur ids out) (hids : ∀ id ∈ ids, id ∈ all)
    (hcur : WholeOf all spans interesting cur) (hc : c ∈ out) :
    WholeOf all spans interesting c ∨
      ∃ id ∈ all, c ∈ traceParts (ofTrace id spans) (ofTrace id interesting) maxRows := by
  induction h with
  | done => exact absurd hc not_mem_nil
  | emit _ ih =>
    rcases mem_cons.mp hc with rfl | hc
    · exact .inl hcur
    · exact ih hids wholeOf_empty hc
  | split _ _ ih =>
    rcases mem_append.mp hc with hc | hc
    · exact .inr ⟨_, hids _ mem_cons_self, hc⟩
    · exact ih (fun x hx => hids x (mem_cons_of_mem _ hx)) hcur hc
  | add _ _ _ ih =>
    exact ih (fun x hx => hids x (mem_cons_of_mem _ hx))
      (hcur.addTrace (hids _ mem_cons_self)) hc

theorem mem_stagingChunks (hc : c ∈ stagingChunks all spans interesting maxRows) :
    WholeOf all spans interesting c ∨
      ∃ id ∈ all, c ∈ traceParts (ofTrace id spans) (ofTrace id interesting) maxRows :=
  (chunksFrom_packs all {}).mem (fun _ h => h) wholeOf_empty hc

theorem stagingChunks_spec (hnd : (spans.map Span.id).Nodup)
    (hkd : (interesting.map Span.id).Nodup) :
    ∀ c ∈ stagingChunks all spans interesting maxRows, ChunkOf all spans interesting c := by
  intro c hc
  refine (mem_stagingChunks hc).imp_right fun ⟨id, _, hc⟩ => ⟨id, traceParts_spec ?_ ?_ ?_ c hc⟩
  · exact hnd.sublist (filter_sublist.map _)
  · exact hkd.sublist (filter_sublist.map _)
  · exact fun s hs => by simpa using (mem_filter.mp hs).2

/-- The trace is in a whole-trace chunk, or all the parts are there. -/
def Covered (t : String) (parts chunks : List Chunk) : Prop :=
  (∃ c ∈ chunks, c.part = none ∧ t ∈ c.traceIDs) ∨ ∀ c ∈ parts, c ∈ chunks

theorem Covered.append {t : String} {parts chunks : List Chunk} (h : Covered t parts chunks)
    (out : List Chunk) : Covered t parts (out ++ chunks) := by
  rcases h with ⟨c, hc, hp⟩ | hall
  · exact .inl ⟨c, mem_append_right _ hc, hp⟩
  · exact .inr fun c hc => mem_append_right _ (hall c hc)

theorem Packs.covers {t : String} (h : Packs spans interesting maxRows cur ids out)
    (hcur : cur.part = none) (ht : t ∈ cur.traceIDs ∨ t ∈ ids) :
    Covered t (traceParts (ofTrace t spans) (ofTrace t interesting) maxRows) out := by
  induction h with
  | done hnil => simp [hnil] at ht
  | @emit cur _ _ _ ih =>
    rcases ht with ht | ht
    · exact .inl ⟨_, mem_cons_self, hcur, ht⟩
    · exact (ih rfl (.inr ht)).append [cur]
  | split hnil _ ih =>
    rw [hnil, mem_cons] at ht
    rcases ht with ht | rfl | ht
    · exact absurd ht not_mem_nil
    · exact .inr fun c hc => mem_append_left _ hc
    · exact (ih hcur (.inr ht)).append _
  | add _ _ _ ih =>
    refine ih hcur ?_
    rw [mem_cons] at ht
    rcases ht with ht | rfl | ht
    · exact .inl (mem_append_left _ ht)
    · exact .inl (mem_append_right _ (mem_singleton_self t))
    · exact .inr ht

end packs

/-! ### Every row is in a chunk -/

/-- Every kept copy in the chunk has its row there. -/
def Chunk.Copies (kept : List Span) (c : Chunk) : Prop :=
  ∀ k ∈ c.interesting, k ∈ kept ∧ ∃ s ∈ c.spans, s.id = k.id

theorem partsFrom_spans :
    ∀ (rest : List Span) (m : ℕ → Option Span) (cur : Chunk),
      (partsFrom maxRows kept m cur rest).flatMap Chunk.spans = cur.spans ++ rest
  | [], m, cur => by simp [partsFrom, Chunk.last]
  | s :: rest, m, cur => by
    simp only [partsFrom]
    split
    · rw [flatMap_cons, partsFrom_spans rest]
      simp [Chunk.push, newTracePart]
    · rw [partsFrom_spans rest]
      simp [Chunk.push]

/-- The parts of a trace hold its staged rows. -/
theorem traceParts_spans (staged kept : List Span) (maxRows : ℕ) :
    ((traceParts staged kept maxRows).flatMap Chunk.spans).Perm staged := by
  rcases traceParts_cases staged kept maxRows with ⟨rfl, heq⟩ | ⟨s, rest, hperm, heq⟩ <;> rw [heq]
  · exact .nil
  · rwa [partsFrom_spans]

theorem Chunk.Copies.push {k : Option Span} (h : c.Copies kept)
    (hk : ∀ x ∈ k, x ∈ kept ∧ x.id = s.id) : (c.push s k).Copies kept := by
  intro x hx
  rcases mem_append.mp hx with hx | hx
  · obtain ⟨hkept, y, hy, hid⟩ := h x hx
    exact ⟨hkept, y, mem_append_left _ hy, hid⟩
  · obtain ⟨hkept, hid⟩ := hk x (Option.mem_toList.mp hx)
    exact ⟨hkept, s, mem_append_right _ (mem_singleton_self _), hid.symm⟩

/-- When every entry left in the map has its row among those left, no kept copy is without a row. -/
theorem partsFrom_copies :
    ∀ (rest : List Span) {m : ℕ → Option Span} {cur : Chunk}, cur.Copies kept →
      (∀ i k, m i = some k → k ∈ kept ∧ k.id = i ∧ ∃ s ∈ rest, s.id = i) →
      ∀ c ∈ partsFrom maxRows kept m cur rest, c.Copies kept
  | [], m, cur, hcur, hm => by
    intro c hc x hx
    rw [mem_singleton.mp hc] at hx ⊢
    rcases mem_append.mp hx with hx | hx
    · exact hcur x hx
    · obtain ⟨k, hk⟩ := Option.isSome_iff_exists.mp (mem_filter.mp hx).2
      obtain ⟨-, -, s, hs, -⟩ := hm _ k hk
      exact absurd hs not_mem_nil
  | s :: rest, m, cur, hcur, hm => by
    have hks : ∀ x ∈ m s.id, x ∈ kept ∧ x.id = s.id := fun x hx =>
      ⟨(hm s.id x hx).1, (hm s.id x hx).2.1⟩
    have hm' : ∀ i k, Function.update m s.id none i = some k →
        k ∈ kept ∧ k.id = i ∧ ∃ s ∈ rest, s.id = i := by
      intro i k hk
      have hne : i ≠ s.id := fun he => by simp [he] at hk
      rw [Function.update_of_ne hne] at hk
      obtain ⟨hkept, hid, x, hx, hxi⟩ := hm i k hk
      rcases mem_cons.mp hx with rfl | hx
      · exact absurd hxi.symm hne
      · exact ⟨hkept, hid, x, hx, hxi⟩
    intro c hc
    simp only [partsFrom] at hc
    split at hc
    · rcases mem_cons.mp hc with rfl | hc
      · exact hcur
      · have hnew : (newTracePart s).Copies kept := forall_mem_nil _
        exact partsFrom_copies rest (hnew.push hks) hm' c hc
    · exact partsFrom_copies rest (hcur.push hks) hm' c hc

theorem byID_eq_some {k : Span} (h : byID kept i = some k) : k ∈ kept ∧ k.id = i := by
  have main : ∀ (l : List Span) (m : ℕ → Option Span), l.foldl setByID m i = some k →
      (k ∈ l ∧ k.id = i) ∨ m i = some k := by
    intro l
    induction l with
    | nil => exact fun m h => .inr h
    | cons s l ih =>
      intro m h
      rcases ih _ h with ⟨hk, hid⟩ | h
      · exact .inl ⟨mem_cons_of_mem _ hk, hid⟩
      · by_cases hi : i = s.id
        · rw [setByID, hi, Function.update_self, Option.some.injEq] at h
          exact .inl ⟨h ▸ mem_cons_self, by rw [← h, hi]⟩
        · rw [setByID, Function.update_of_ne hi] at h
          exact .inr h
  rcases main kept _ h with h | h
  · exact h
  · cases h

theorem traceParts_copies (hrow : ∀ k ∈ kept, ∃ s ∈ staged, s.id = k.id) :
    ∀ c ∈ traceParts staged kept maxRows, c.Copies kept := by
  rcases traceParts_cases staged kept maxRows with ⟨-, heq⟩ | ⟨s, rest, hperm, heq⟩ <;> rw [heq]
  · exact forall_mem_nil _
  · have hnew : (newTracePart s).Copies kept := forall_mem_nil _
    refine partsFrom_copies (s :: rest) hnew fun i k hk => ?_
    obtain ⟨hkept, hid⟩ := byID_eq_some hk
    obtain ⟨x, hx, hxk⟩ := hrow k hkept
    exact ⟨hkept, hid, x, hperm.symm.subset hx, hxk.trans hid⟩

end Spanbarn.Staging
