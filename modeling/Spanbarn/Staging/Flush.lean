import Mathlib.Data.List.Perm.Basic
import Spanbarn.Schemes.Run
import Spanbarn.Staging.Chunks

/-! Staging inserts against the staging flusher.

    The Redis worker appends rows to `spans_staging`; the flusher picks ready traces, reads their rows
    on the read connection, classifies them and then commits chunk by chunk. Inserts and the hard
    cleanup may run between any two of its steps, and any commit may fail, which ends that flush.

        pick ids ──▶ read rows ──▶ classify, cut ──▶ commit chunk ──▶ commit chunk ──▶ …
                        ▲                                ▲
                        └──── inserts in between ────────┘

    A part of a trace deletes the rows it names by id. A whole-trace chunk deletes by trace id, so it
    also takes the rows that came in after the flush read. -/

namespace Spanbarn.Staging
open List Spanbarn.Model Spanbarn.Schemes

/-! ### The two tables -/

/-- What one committed chunk did: `read` and `kept` are of the flush it belongs to. -/
structure Commit where
  read : List Span
  kept : List Span
  stored : List Span
  counted : List Span
  removed : List Span
  deriving DecidableEq, Repr

/-- Where `flushOnce` stands. -/
inductive Flush where
  | idle
  | picked (ids : List String)
  | committing (read kept : List Span) (chunks : List Chunk)
  deriving DecidableEq, Repr

/-- The tables, the accumulator, the flusher, and the history of all rows. -/
structure System where
  staging : List Span := []
  nextID : ℕ := 1
  spans : List Span := []
  accumulated : List Span := []
  flush : Flush := .idle
  staged : List Span := []
  commits : List Commit := []
  collected : List Span := []
  deriving DecidableEq, Repr

/-- The rows an insert makes of its records: `id` counts up and is never reused. -/
def newRows (now : ℤ) : ℕ → List SpanRecord → List Span
  | _, [] => []
  | n, r :: rest =>
    { id := n, record := r, ingestedAt := currentTimestamp now } :: newRows now (n + 1) rest

/-- `InsertSpansStaging`, one transaction. -/
def System.insertSpansStaging (s : System) (now : ℤ) (records : List SpanRecord) : System :=
  { s with
    staging := s.staging ++ newRows now s.nextID records
    nextID := s.nextID + records.length
    staged := s.staged ++ newRows now s.nextID records }

/-- `a` has a row that is no younger than this one. -/
def NoYounger (staging : List Span) (a : String) (r : Span) : Prop :=
  ∃ q ∈ staging, q.traceID = a ∧ q.ingestedAt ≤ r.ingestedAt

instance (staging : List Span) (a : String) (r : Span) : Decidable (NoYounger staging a r) := by
  unfold NoYounger; infer_instance

/-- An answer of `ReadyStagingTraceIDs`: at most `limit` traces whose oldest row is older than the
    cutoff, oldest first, and none left out that is older. A staged row has the database's own time, so
    one of the very instant of the cutoff is older too. -/
def ReadyStagingTraceIDs (staging : List Span) (cutoff : ℤ) (limit : ℕ) (ids : List String) : Prop :=
  ids.Nodup ∧ ids.length ≤ limit ∧
    (∀ id ∈ ids, ∃ r ∈ staging, r.traceID = id ∧ r.ingestedAt ≤ cutoff) ∧
    ids.Pairwise (fun a b => ∀ r ∈ staging, r.traceID = b → NoYounger staging a r) ∧
    ∀ r ∈ staging, r.ingestedAt ≤ cutoff → r.traceID ∉ ids →
      ids.length = limit ∧ ∀ id ∈ ids, NoYounger staging id r

instance (staging : List Span) (cutoff : ℤ) (limit : ℕ) (ids : List String) :
    Decidable (ReadyStagingTraceIDs staging cutoff limit ids) := by
  unfold ReadyStagingTraceIDs; infer_instance

/-- The rows `GetStagingSpansByTraceIDs` selects; the order is SQLite's. -/
def stagingSpansByTraceIDs (staging : List Span) (ids : List String) : List Span :=
  staging.filter fun r => decide (r.traceID ∈ ids)

/-- What classification may answer: some of the spans it was given, each at most once and unchanged but
    for its expiry and its durable flag. -/
def Verdict (spans kept : List Span) : Prop :=
  (kept.map Span.id).Nodup ∧ ∀ k ∈ kept, ∃ s ∈ spans,
    k = { s with expiresAt := k.expiresAt, durable := k.durable }

instance (spans kept : List Span) : Decidable (Verdict spans kept) := by
  unfold Verdict; infer_instance

/-- The commit returns without a job: no trace, or a part that names no row. -/
def Chunk.noJob (c : Chunk) : Bool :=
  match c.part with
  | none => c.traceIDs.isEmpty
  | some p => p.stagedIDs.isEmpty

/-- The WHERE of the delete: `CommitStagingFlush` goes by trace id, `CommitStagingTracePart` by row
    id and trace id. -/
def Chunk.deletes (c : Chunk) (r : Span) : Bool :=
  match c.part with
  | none => decide (r.traceID ∈ c.traceIDs)
  | some p => decide (r.id ∈ p.stagedIDs) && decide (r.traceID = p.traceID)

/-- What the transaction inserts into the spans table. -/
def Chunk.stores (c : Chunk) : List Span := if c.noJob then [] else c.interesting

/-- `commitChunk` of one chunk: the transaction, then `AddBatch`. -/
def System.commitChunk (s : System) (read kept : List Span) (c : Chunk) : System :=
  { s with
    staging := s.staging.filter fun r => !c.deletes r
    spans := s.spans ++ c.stores
    accumulated := s.accumulated ++ c.spans
    commits := s.commits ++ [⟨read, kept, c.stores, c.spans, s.staging.filter c.deletes⟩] }

/-- The chunks a flush commits, with the dropped copies added to the parts. -/
def flushChunks (ids : List String) (read kept : List Span) : List Chunk :=
  (stagingChunks ids (dropReplayedSpans read).unique kept stagingChunkRows).map fun c =>
    c.addReplayedRows (dropReplayedSpans read).replayed

/-- The chunks under any cap. -/
def flushChunksOf (maxRows : ℕ) (ids : List String) (read kept : List Span) : List Chunk :=
  (stagingChunks ids (dropReplayedSpans read).unique kept maxRows).map fun c =>
    c.addReplayedRows (dropReplayedSpans read).replayed

/-- `DeleteStagingOlderThan`: one batch, any rows older than the cutoff. -/
def System.collect (s : System) (cutoff : ℤ) (ids : List ℕ) : System :=
  let old := fun r : Span => decide (r.ingestedAt ≤ cutoff) && decide (r.id ∈ ids)
  { s with
    staging := s.staging.filter fun r => !old r
    collected := s.collected ++ s.staging.filter old }

/-- What may happen next. -/
inductive Action where
  | stage (now : ℤ) (records : List SpanRecord)
  | ready (cutoff : ℤ) (limit : ℕ) (ids : List String)
  | read (rows kept : List Span)
  | commit
  | fail
  | collect (cutoff : ℤ) (ids : List ℕ)
  deriving DecidableEq, Repr

def step (s : System) : Action → Option System
  | .stage now records => some (s.insertSpansStaging now records)
  | .ready cutoff limit ids =>
    match s.flush with
    | .idle =>
      if ReadyStagingTraceIDs s.staging cutoff limit ids then
        some (if ids.isEmpty then s else { s with flush := .picked ids })
      else none
    | _ => none
  | .read rows kept =>
    match s.flush with
    | .picked ids =>
      if rows.Perm (stagingSpansByTraceIDs s.staging ids) ∧
          Verdict (dropReplayedSpans rows).unique kept then
        some { s with flush := .committing rows kept (flushChunks ids rows kept) }
      else none
    | _ => none
  | .commit =>
    match s.flush with
    | .committing _ _ [] => some { s with flush := .idle }
    | .committing read kept (c :: rest) =>
      some { s.commitChunk read kept c with flush := .committing read kept rest }
    | _ => none
  -- a query or a commit that fails returns its error: the flush ends there
  | .fail => if s.flush = .idle then none else some { s with flush := .idle }
  | .collect cutoff ids => some (s.collect cutoff ids)

/-- All a step can do. -/
inductive Step (s : System) : Action → System → Prop
  | stage {now records} : Step s (.stage now records) (s.insertSpansStaging now records)
  | nothingReady {cutoff limit ids} : Step s (.ready cutoff limit ids) s
  | picked {cutoff limit ids} (h : s.flush = .idle) :
      Step s (.ready cutoff limit ids) { s with flush := .picked ids }
  | read {ids rows kept} (h : s.flush = .picked ids)
      (hrows : rows.Perm (stagingSpansByTraceIDs s.staging ids))
      (hkept : Verdict (dropReplayedSpans rows).unique kept) :
      Step s (.read rows kept)
        { s with flush := .committing rows kept (flushChunks ids rows kept) }
  | finished {a} : Step s a { s with flush := .idle }
  | commit {read kept c rest} (h : s.flush = .committing read kept (c :: rest)) :
      Step s .commit { s.commitChunk read kept c with flush := .committing read kept rest }
  | collect {cutoff ids} : Step s (.collect cutoff ids) (s.collect cutoff ids)

variable {s : System}

theorem Step.of_step {s' : System} {a : Action} (h : step s a = some s') : Step s a s' := by
  cases a with
  | stage now records => cases h; exact .stage
  | ready cutoff limit ids =>
    cases hf : s.flush with
    | idle =>
      simp only [step, hf] at h
      split at h
      · cases h
        split
        · exact .nothingReady
        · exact .picked hf
      · cases h
    | picked _ | committing _ _ _ => simp [step, hf] at h
  | read rows kept =>
    cases hf : s.flush with
    | idle | committing _ _ _ => simp [step, hf] at h
    | picked ids =>
      simp only [step, hf] at h
      split at h
      · next hc => cases h; exact .read hf hc.1 hc.2
      · cases h
  | commit =>
    cases hf : s.flush with
    | idle | picked ids => simp [step, hf] at h
    | committing read kept chunks =>
      cases chunks with
      | nil => simp only [step, hf] at h; cases h; exact .finished
      | cons c rest => simp only [step, hf] at h; cases h; exact .commit hf
  | fail =>
    simp only [step] at h
    split at h
    · cases h
    · cases h; exact .finished
  | collect cutoff ids => cases h; exact .collect

/-! ### The rows and their ids -/

variable {r : Span}

theorem mem_newRows {now : ℤ} {n : ℕ} {records : List SpanRecord} (h : r ∈ newRows now n records) :
    n ≤ r.id ∧ r.id < n + records.length ∧ r.record ∈ records := by
  induction records generalizing n with
  | nil => exact absurd h not_mem_nil
  | cons x rest ih =>
    rcases mem_cons.mp h with rfl | h
    · exact ⟨le_rfl, by simp, mem_cons_self⟩
    · obtain ⟨h1, h2, h3⟩ := ih h
      exact ⟨by omega, by rw [length_cons]; omega, mem_cons_of_mem _ h3⟩

theorem newRows_nodup (now : ℤ) : ∀ (records : List SpanRecord) (n : ℕ),
    ((newRows now n records).map Span.id).Nodup
  | [], _ => nodup_nil
  | x :: rest, n => by
    refine nodup_cons.mpr ⟨fun h => ?_, newRows_nodup now rest (n + 1)⟩
    obtain ⟨r, hr, hid⟩ := mem_map.mp h
    have : n + 1 ≤ r.id := (mem_newRows hr).1
    have : r.id = n := hid
    omega

/-- Row ids are never reused, and what is in staging has been staged. -/
structure Rows (s : System) : Prop where
  nodup : (s.staged.map Span.id).Nodup
  bound : ∀ r ∈ s.staged, r.id < s.nextID
  staging : s.staging.Sublist s.staged

theorem Rows.eq_of_id (h : Rows s) {a b : Span} (ha : a ∈ s.staged) (hb : b ∈ s.staged)
    (hid : a.id = b.id) : a = b :=
  inj_on_of_nodup_map h.nodup ha hb hid

theorem Rows.insert (h : Rows s) (now : ℤ) (records : List SpanRecord) :
    Rows (s.insertSpansStaging now records) := by
  refine ⟨?_, fun r hr => ?_, h.staging.append (.refl _)⟩
  · change ((s.staged ++ newRows now s.nextID records).map Span.id).Nodup
    rw [map_append, nodup_append]
    refine ⟨h.nodup, newRows_nodup now records s.nextID, ?_⟩
    rintro i hi j hj rfl
    obtain ⟨r, hr, rfl⟩ := mem_map.mp hi
    obtain ⟨q, hq, hqr⟩ := mem_map.mp hj
    have := h.bound r hr
    have := (mem_newRows hq).1
    omega
  · rcases mem_append.mp hr with hr | hr
    · exact Nat.lt_add_right _ (h.bound r hr)
    · exact (mem_newRows hr).2.1

/-! ### What a commit may remove -/

/-- Every kept copy of the row went into the spans table with this commit. -/
def Commit.StoresKept (c : Commit) (r : Span) : Prop := ∀ k ∈ c.kept, k.id = r.id → k ∈ c.stored

/-- The row was read by the flush, and counted with its kept copy stored, or it is a replayed copy of a
    row that was. -/
def Commit.Handled (c : Commit) (r : Span) : Prop :=
  r ∈ c.read ∧ ∃ f ∈ c.counted, (f = r ∨ Replays f r) ∧ c.StoresKept f

/-- The whole-trace chunks a flush has read for and not committed yet. -/
def System.pending (s : System) : List Chunk :=
  match s.flush with
  | .committing _ _ chunks => chunks.filter fun c => c.part.isNone
  | _ => []

/-- No insert adds a row to a trace of a whole-trace chunk that has been read and is not committed. -/
def Undisturbed (s : System) : Action → Prop
  | .stage _ records => ∀ r ∈ records, ∀ c ∈ s.pending, r.traceID ∉ c.traceIDs
  | _ => True

instance (s : System) (a : Action) : Decidable (Undisturbed s a) := by
  unfold Undisturbed; split <;> infer_instance

/-- A chunk of a flush with its replayed rows. -/
structure Cut (ids : List String) (read kept : List Span) (c : Chunk) : Prop where
  chunk : ∃ c₀, ChunkOf ids (dropReplayedSpans read).unique kept c₀ ∧
    c = c₀.addReplayedRows (dropReplayedSpans read).replayed

/-- What a flush that has read relies on: its rows were staged, and every row in staging of a trace it
    will delete as a whole is one it read. -/
structure Reading (s : System) (read kept : List Span) (chunks : List Chunk) : Prop where
  staged : ∀ r ∈ read, r ∈ s.staged
  verdict : Verdict (dropReplayedSpans read).unique kept
  cut : ∃ ids, ∀ c ∈ chunks, Cut ids read kept c
  whole : ∀ c ∈ chunks, c.part = none → ∀ r ∈ s.staging, r.traceID ∈ c.traceIDs → r ∈ read

variable {kept : List Span}

/-- A kept span is a copy of the row of its id. -/
theorem Verdict.traceID {spans : List Span} (h : Verdict spans kept) {k : Span} (hk : k ∈ kept) :
    ∃ s ∈ spans, s.id = k.id ∧ s.traceID = k.traceID := by
  obtain ⟨s, hs, he⟩ := h.2 k hk
  exact ⟨s, hs, by rw [he], by rw [he]; rfl⟩

theorem mem_ofTrace {id : String} {spans : List Span} :
    r ∈ ofTrace id spans ↔ r ∈ spans ∧ r.traceID = id := by
  simp [ofTrace]

variable {c : Chunk}

/-- A job that deletes a row also stores what the chunk keeps. -/
theorem Chunk.stores_of_deletes (h : c.deletes r = true) :
    c.stores = c.interesting := by
  have hjob : c.noJob = false := by
    unfold Chunk.deletes at h
    unfold Chunk.noJob
    cases hp : c.part with
    | none =>
      simp only [hp, decide_eq_true_eq] at h
      simpa using ne_nil_of_mem h
    | some p =>
      simp only [hp, Bool.and_eq_true, decide_eq_true_eq] at h
      simpa using ne_nil_of_mem h.1
  rw [Chunk.stores, hjob]
  rfl

variable {ids : List String}

/-- A whole-trace chunk: every row it deletes was read, so it is in the chunk or a copy of a row
    that is. -/
theorem WholeOf.handles {read : List Span} (h : WholeOf ids (dropReplayedSpans read).unique kept c)
    (hr : r ∈ read) (hid : r.traceID ∈ c.traceIDs) :
    ∃ f ∈ c.spans, (f = r ∨ Replays f r) ∧
      ∀ k ∈ kept, k.traceID = f.traceID → k ∈ c.interesting := by
  have hstores : ∀ f : Span, f.traceID ∈ c.traceIDs →
      ∀ k ∈ kept, k.traceID = f.traceID → k ∈ c.interesting := by
    intro f hf k hk hkf
    rw [h.interesting, mem_flatMap]
    exact ⟨f.traceID, hf, mem_ofTrace.mpr ⟨hk, hkf⟩⟩
  have hin : ∀ f ∈ (dropReplayedSpans read).unique, f.traceID ∈ c.traceIDs → f ∈ c.spans := by
    intro f hf hft
    rw [h.spans, mem_flatMap]
    exact ⟨f.traceID, hft, mem_ofTrace.mpr ⟨hf, rfl⟩⟩
  rcases mem_unique_or_replayed hr with hu | ⟨f, hf, -, hrep⟩
  · exact ⟨r, hin r hu hid, .inl rfl, hstores r hid⟩
  · have htr : f.traceID = r.traceID := congrArg (fun k => k.2.1) hrep.key
    exact ⟨f, hin f hf (htr ▸ hid), .inr hrep, hstores f (htr ▸ hid)⟩

/-- A part deletes its rows and the copies recorded for them, in its trace. -/
theorem PartOf.deletes_iff {id : String} {staged : List Span} {replayed : ℕ → List ℕ}
    (h : PartOf id staged kept c) :
    (c.addReplayedRows replayed).deletes r = true ↔
      (r.id ∈ c.spans.map Span.id ∨ ∃ f ∈ c.spans, r.id ∈ replayed f.id) ∧ r.traceID = id := by
  obtain ⟨p, hpart, hid, hids⟩ := h.part
  simp [Chunk.deletes, Chunk.addReplayedRows, hpart, hids, hid]

/-- A row the flush read leaves with a chunk that counts it, or the row it is a copy of, and stores the
    kept copies of that row. -/
theorem Cut.handles {read : List Span} (h : Cut ids read kept c)
    (hinj : ∀ a ∈ read, ∀ b ∈ read, a.id = b.id → a = b)
    (hverdict : Verdict (dropReplayedSpans read).unique kept) (hr : r ∈ read)
    (hdel : c.deletes r = true) :
    ∃ f ∈ c.spans, (f = r ∨ Replays f r) ∧ ∀ k ∈ kept, k.id = f.id → k ∈ c.stores := by
  obtain ⟨c₀, hc₀, rfl⟩ := h.chunk
  -- the kept copy of a row has the row's trace
  have htrace : ∀ f ∈ (dropReplayedSpans read).unique, ∀ k ∈ kept, k.id = f.id →
      k.traceID = f.traceID := by
    intro f hf k hk hkf
    obtain ⟨x, hx, hxk, hxt⟩ := hverdict.traceID hk
    rw [← hxt, hinj x (unique_subset hx) f (unique_subset hf) (hxk.trans hkf)]
  rw [Chunk.stores_of_deletes hdel]
  rcases hc₀ with hw | ⟨id, hp⟩
  · have hnone : (c₀.addReplayedRows (dropReplayedSpans read).replayed).part = none := by
      simp [Chunk.addReplayedRows, hw.part]
    have hid : r.traceID ∈ c₀.traceIDs := by
      simp only [Chunk.deletes, hnone, decide_eq_true_eq] at hdel
      exact hdel
    obtain ⟨f, hf, hfr, hst⟩ := hw.handles hr hid
    refine ⟨f, hf, hfr, fun k hk hkf => hst k hk (htrace f ?_ k hk hkf)⟩
    have hf' := hf
    rw [hw.spans, mem_flatMap] at hf'
    obtain ⟨i, -, hfi⟩ := hf'
    exact (mem_ofTrace.mp hfi).1
  · have hstores : ∀ f ∈ c₀.spans, ∀ k ∈ kept, k.id = f.id → k ∈ c₀.interesting := by
      intro f hf k hk hkf
      have hfu := mem_ofTrace.mp (hp.staged f hf)
      exact hp.stored f hf k (mem_ofTrace.mpr ⟨hk, (htrace f hfu.1 k hk hkf).trans hfu.2⟩) hkf
    rcases (hp.deletes_iff.mp hdel).1 with hmem | ⟨f, hf, hrep⟩
    · obtain ⟨f, hf, hfr⟩ := mem_map.mp hmem
      have hfu := (mem_ofTrace.mp (hp.staged f hf)).1
      obtain rfl := hinj f (unique_subset hfu) r hr hfr
      exact ⟨f, hf, .inl rfl, hstores f hf⟩
    · obtain ⟨g, hg, hgf, x, hx, hxr, hgx⟩ := replayed_spec hrep
      have hfu := (mem_ofTrace.mp (hp.staged f hf)).1
      obtain rfl := hinj g (unique_subset hg) f (unique_subset hfu) hgf
      obtain rfl := hinj x hx r hr hxr
      exact ⟨g, hf, .inr hgx, hstores g hf⟩

/-- A part names rows by the ids of rows the flush read. -/
theorem Cut.deletes_read {read : List Span} (h : Cut ids read kept c) (hpart : c.part ≠ none)
    (hdel : c.deletes r = true) : ∃ x ∈ read, x.id = r.id := by
  obtain ⟨c₀, hc₀, rfl⟩ := h.chunk
  rcases hc₀ with hw | ⟨id, hp⟩
  · exact absurd (by simp [Chunk.addReplayedRows, hw.part]) hpart
  · rcases (hp.deletes_iff.mp hdel).1 with hmem | ⟨f, hf, hrep⟩
    · obtain ⟨f, hf, hfr⟩ := mem_map.mp hmem
      exact ⟨f, unique_subset (mem_ofTrace.mp (hp.staged f hf)).1, hfr⟩
    · obtain ⟨-, -, -, x, hx, hxr, -⟩ := replayed_spec hrep
      exact ⟨x, hx, hxr⟩

/-- What a chunk deletes, the flush has handled. -/
theorem Reading.handled (hrows : Rows s) {read : List Span} {rest : List Chunk}
    (h : Reading s read kept (c :: rest)) (hr : r ∈ s.staging) (hdel : c.deletes r = true) :
    r ∈ read ∧ ∃ f ∈ c.spans, (f = r ∨ Replays f r) ∧ ∀ k ∈ kept, k.id = f.id → k ∈ c.stores := by
  obtain ⟨ids, hcut⟩ := h.cut
  have hc : Cut ids read kept c := hcut c mem_cons_self
  have hread : r ∈ read := by
    cases hpart : c.part with
    | none =>
      simp only [Chunk.deletes, hpart, decide_eq_true_eq] at hdel
      exact h.whole c mem_cons_self hpart r hr hdel
    | some p =>
      obtain ⟨x, hx, hxr⟩ := hc.deletes_read (by simp [hpart]) hdel
      exact hrows.eq_of_id (h.staged x hx) (hrows.staging.subset hr) hxr ▸ hx
  have hinj : ∀ a ∈ read, ∀ b ∈ read, a.id = b.id → a = b := fun a ha b hb =>
    hrows.eq_of_id (h.staged a ha) (h.staged b hb)
  exact ⟨hread, hc.handles hinj h.verdict hread hdel⟩

/-! ### The invariant -/

/-- A staged row is in staging, left with a commit, or was collected. -/
def System.Located (s : System) (r : Span) : Prop :=
  r ∈ s.staging ∨ (∃ c ∈ s.commits, r ∈ c.removed) ∨ r ∈ s.collected

/-- A commit removed handled rows only, and what it stored and counted is there. -/
structure Sound (s : System) (c : Commit) : Prop where
  handled : ∀ r ∈ c.removed, c.Handled r
  stored : ∀ k ∈ c.stored, k ∈ s.spans
  counted : ∀ x ∈ c.counted, x ∈ s.accumulated

structure Inv (s : System) : Prop where
  rows : Rows s
  reading : ∀ {read kept chunks}, s.flush = .committing read kept chunks →
    Reading s read kept chunks
  commits : ∀ c ∈ s.commits, Sound s c
  located : ∀ r ∈ s.staged, s.Located r

theorem inv_init : Inv {} :=
  ⟨⟨nodup_nil, forall_mem_nil _, .slnil⟩, fun h => by simp at h, forall_mem_nil _, forall_mem_nil _⟩

theorem Inv.stage (h : Inv s) {now : ℤ} {records : List SpanRecord}
    (hc : Undisturbed s (.stage now records)) : Inv (s.insertSpansStaging now records) := by
  refine ⟨h.rows.insert now records, fun {read kept chunks} hf => ?_, fun c hcm => ?_,
    fun r hr => ?_⟩
  · have hread := h.reading hf
    refine ⟨fun r hr => mem_append_left _ (hread.staged r hr), hread.verdict, hread.cut,
      fun c hcm hpart r hr hid => ?_⟩
    rcases mem_append.mp hr with hr | hr
    · exact hread.whole c hcm hpart r hr hid
    -- a new row of such a trace is what the condition excludes
    · have hpend : c ∈ s.pending := by
        have hf' : s.flush = .committing read kept chunks := hf
        simp [System.pending, hf', hcm, hpart]
      exact absurd hid (hc r.record (mem_newRows hr).2.2 c hpend)
  · obtain ⟨h1, h2, h3⟩ := h.commits c hcm
    exact ⟨h1, h2, h3⟩
  · rcases mem_append.mp hr with hr | hr
    · exact (h.located r hr).imp_left (mem_append_left _)
    · exact .inl (mem_append_right _ hr)

theorem Inv.read (h : Inv s) {rows : List Span}
    (hrows : rows.Perm (stagingSpansByTraceIDs s.staging ids))
    (hkept : Verdict (dropReplayedSpans rows).unique kept) :
    Inv { s with flush := .committing rows kept (flushChunks ids rows kept) } := by
  have hsub : ∀ r ∈ rows, r ∈ s.staging := fun r hr => (mem_filter.mp (hrows.subset hr)).1
  have hnodup : ((dropReplayedSpans rows).unique.map Span.id).Nodup := by
    refine List.Nodup.sublist ((unique_sublist rows).map _) ?_
    refine (hrows.map Span.id).nodup_iff.mpr (h.rows.nodup.sublist ?_)
    exact (filter_sublist.trans h.rows.staging).map _
  have hchunks : ∀ c ∈ stagingChunks ids (dropReplayedSpans rows).unique kept stagingChunkRows,
      ChunkOf ids (dropReplayedSpans rows).unique kept c := stagingChunks_spec hnodup hkept.1
  refine ⟨⟨h.rows.nodup, h.rows.bound, h.rows.staging⟩, fun {read kept' chunks} hf => ?_,
    fun c hc => ?_, h.located⟩
  · cases hf
    refine ⟨fun r hr => h.rows.staging.subset (hsub r hr), hkept, ⟨ids, fun c hc => ?_⟩,
      fun c hc hpart r hr hid => ?_⟩
    · obtain ⟨c₀, hc₀, rfl⟩ := mem_map.mp hc
      exact ⟨c₀, hchunks c₀ hc₀, rfl⟩
    · obtain ⟨c₀, hc₀, rfl⟩ := mem_map.mp hc
      -- all rows of the picked traces were read just now
      have hpart₀ : c₀.part = none := by simpa [Chunk.addReplayedRows] using hpart
      have hids : r.traceID ∈ ids := by
        rcases hchunks c₀ hc₀ with hw | ⟨i, hp⟩
        · exact hw.ids _ hid
        · obtain ⟨p, hp', -⟩ := hp.part
          rw [hpart₀] at hp'
          cases hp'
      exact hrows.symm.subset (mem_filter.mpr ⟨hr, by simpa using hids⟩)
  · obtain ⟨h1, h2, h3⟩ := h.commits c hc
    exact ⟨h1, h2, h3⟩

theorem Inv.commit (h : Inv s) {read : List Span} {rest : List Chunk}
    (hf : s.flush = .committing read kept (c :: rest)) :
    Inv { s.commitChunk read kept c with flush := .committing read kept rest } := by
  have hread := h.reading hf
  refine ⟨⟨h.rows.nodup, h.rows.bound, filter_sublist.trans h.rows.staging⟩,
    fun {read' kept' chunks} hf' => ?_, fun d hd => ?_, fun r hr => ?_⟩
  · cases hf'
    obtain ⟨ids, hcut⟩ := hread.cut
    exact ⟨hread.staged, hread.verdict, ⟨ids, fun d hd => hcut d (mem_cons_of_mem _ hd)⟩,
      fun d hd hpart r hr hid =>
        hread.whole d (mem_cons_of_mem _ hd) hpart r (mem_filter.mp hr).1 hid⟩
  · rcases mem_append.mp hd with hd | hd
    · obtain ⟨h1, h2, h3⟩ := h.commits d hd
      exact ⟨h1, fun k hk => mem_append_left _ (h2 k hk),
        fun x hx => mem_append_left _ (h3 x hx)⟩
    · rw [mem_singleton.mp hd]
      refine ⟨fun r hr => ?_, fun k hk => mem_append_right _ hk,
        fun x hx => mem_append_right _ hx⟩
      obtain ⟨hr, hdel⟩ := mem_filter.mp hr
      exact hread.handled h.rows hr hdel
  · rcases h.located r hr with hr | ⟨d, hd, hr⟩ | hr
    · cases hdel : c.deletes r with
      | true => exact .inr (.inl ⟨_, mem_append_right _ (mem_singleton.mpr rfl),
          mem_filter.mpr ⟨hr, hdel⟩⟩)
      | false => exact .inl (mem_filter.mpr ⟨hr, by simp [hdel]⟩)
    · exact .inr (.inl ⟨d, mem_append_left _ hd, hr⟩)
    · exact .inr (.inr hr)

theorem Inv.collect (h : Inv s) (cutoff : ℤ) (ids : List ℕ) :
    Inv (s.collect cutoff ids) := by
  refine ⟨⟨h.rows.nodup, h.rows.bound, filter_sublist.trans h.rows.staging⟩,
    fun {read kept chunks} hf => ?_, fun c hc => ?_, fun r hr => ?_⟩
  · have hread := h.reading hf
    exact ⟨hread.staged, hread.verdict, hread.cut, fun c hc hpart r hr hid =>
      hread.whole c hc hpart r (mem_filter.mp hr).1 hid⟩
  · obtain ⟨h1, h2, h3⟩ := h.commits c hc
    exact ⟨h1, h2, h3⟩
  · rcases h.located r hr with hr | hr | hr
    · cases hold : decide (r.ingestedAt ≤ cutoff) && decide (r.id ∈ ids) with
      | true => exact .inr (.inr (mem_append_right _ (mem_filter.mpr ⟨hr, hold⟩)))
      | false => exact .inl (mem_filter.mpr ⟨hr, by simp [hold]⟩)
    · exact .inr (.inl hr)
    · exact .inr (.inr (mem_append_left _ hr))

theorem Inv.rest (h : Inv s) {f : Flush}
    (hf : ∀ {read kept chunks}, f ≠ .committing read kept chunks) : Inv { s with flush := f } := by
  refine ⟨⟨h.rows.nodup, h.rows.bound, h.rows.staging⟩, fun he => absurd he hf, fun c hc => ?_,
    h.located⟩
  obtain ⟨h1, h2, h3⟩ := h.commits c hc
  exact ⟨h1, h2, h3⟩

theorem inv_step (s : System) (a : Action) (s' : System) (h : Inv s) (hc : Undisturbed s a)
    (hs : step s a = some s') : Inv s' := by
  cases Step.of_step hs with
  | stage => exact h.stage hc
  | nothingReady => exact h
  | picked _ | finished => exact h.rest nofun
  | read _ hrows hkept => exact h.read hrows hkept
  | commit hf => exact h.commit hf
  | collect => exact h.collect ..

/-- CORRECT: as long as no insert reaches a trace that has been read and waits to be deleted as a
    whole, in every state every row a flush commit removed had been read by that flush, and was
    counted with its kept copies stored or is a replayed copy of such a row; and every row ever staged
    is in staging, left that way, or was collected by the hard cleanup. -/
theorem flush_loses_no_row (as : List Action) (s : System) (hc : Meets step Undisturbed {} as)
    (h : run step {} as = some s) :
    (∀ c ∈ s.commits, (∀ r ∈ c.removed, c.Handled r) ∧ (∀ k ∈ c.stored, k ∈ s.spans) ∧
      ∀ x ∈ c.counted, x ∈ s.accumulated) ∧ ∀ r ∈ s.staged, s.Located r := by
  have hinv : Inv s := inv_run_meets inv_step inv_init hc h
  exact ⟨fun c hc => ⟨(hinv.commits c hc).handled, (hinv.commits c hc).stored,
    (hinv.commits c hc).counted⟩, hinv.located⟩

/-! ### A late row -/

def first : SpanRecord := { projectID := 1, traceID := "t", spanID := "a" }

def late : SpanRecord := { projectID := 1, traceID := "t", spanID := "b" }

/-- The flush reads the trace's one row and keeps it. -/
def readFirst : List Action :=
  [.stage 0 [first], .ready 10 200 ["t"], .read [⟨1, first, 0, none, false, false⟩]
    [⟨1, first, 0, none, true, false⟩]]

/-- Between the read and the commit the worker stages one more row of the trace. -/
def lateRow : List Action := readFirst ++ [.stage 5 [late], .commit]

/-- The commit deletes the late row, which no flush has read, counted or stored. -/
theorem late_row_lost :
    ∃ s, run step {} lateRow = some s ∧ ∃ c ∈ s.commits, ∃ r ∈ c.removed, r ∉ c.read ∧
      r ∉ s.accumulated ∧ (∀ k ∈ s.spans, k.id ≠ r.id) ∧ r ∉ s.staging ∧ s.collected = [] :=
  ⟨_, rfl, by decide⟩

/-- A run whose steps all meet the condition: the late row comes before the read, with a replayed copy
    of the first, and another trace is staged while the commit waits. -/
def rowsInTime : List Action :=
  [.stage 0 [first], .stage 1 [late, first], .ready 10 200 ["t"],
    .read [⟨1, first, 0, none, false, false⟩, ⟨2, late, 0, none, false, false⟩,
      ⟨3, first, 0, none, false, false⟩]
      [⟨1, first, 0, none, true, false⟩],
    .stage 5 [{ first with traceID := "u" }], .commit, .commit]

theorem flush_loses_no_row_in_time :
    ∃ s, run step {} rowsInTime = some s ∧ s.commits.length = 1 ∧ s.staging.length = 1 ∧
      ((∀ c ∈ s.commits, (∀ r ∈ c.removed, c.Handled r) ∧ (∀ k ∈ c.stored, k ∈ s.spans) ∧
        ∀ x ∈ c.counted, x ∈ s.accumulated) ∧ ∀ r ∈ s.staged, s.Located r) :=
  ⟨_, rfl, by decide, by decide, flush_loses_no_row rowsInTime _ (by decide) rfl⟩

end Spanbarn.Staging
