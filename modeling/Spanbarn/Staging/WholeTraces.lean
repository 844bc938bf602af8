import Spanbarn.Staging.Classify
import Spanbarn.Staging.Flush

/-! A trace through failing flushes.

    The flusher is put together with its classification: every flush classifies what it has read, with
    the policy of that moment, and commits chunk by chunk. A trace in a whole-trace chunk leaves staging
    in one commit. A trace over the cap leaves part by part, and a commit that fails in between leaves
    the rest to a later flush, which classifies that rest alone.

        waiting ── read, classify ──▶ moving ── last chunk ──▶ settled
           ▲                            │
           └── a commit fails, and no row of the trace has left

    As long as no commit fails between two parts of the trace, one verdict covers all its rows. -/

namespace Spanbarn.Staging
open List Spanbarn.Model Spanbarn.Schemes

/-! ### The flusher with its classification -/

/-- The tables with the flush, and the floors the classification counts in. -/
structure Flusher where
  sys : System := {}
  floors : Floors := {}

/-- The read of a flush classifies with what it meets outside; everything else is a step of the tables,
    or the sweep of the floors. -/
inductive Move where
  | read (rows : List Span) (m : Moment)
  | other (a : Action)
  | sweep (now : ℤ)

def Action.isRead : Action → Bool
  | .read .. => true
  | _ => false

/-- What `flushOnce` keeps of the rows it has read. -/
def Flusher.classify (c : Classifier) (s : Flusher) (rows : List Span) (m : Moment) : Classified :=
  classifySpansForStorage c m s.floors (dropReplayedSpans rows).unique

def Flusher.step (c : Classifier) (s : Flusher) : Move → Option Flusher
  | .read rows m =>
    (Staging.step s.sys (.read rows (s.classify c rows m).kept)).map fun t =>
      ⟨t, (s.classify c rows m).floors⟩
  | .other a =>
    if a.isRead then none else (Staging.step s.sys a).map fun t => { s with sys := t }
  | .sweep now => some { s with
      floors := ⟨s.floors.minute.map (·.gc now), s.floors.hourly.map (·.gc now)⟩ }

/-- What a move does to the tables. -/
inductive Moved (c : Classifier) (s : Flusher) : Move → System → Prop
  | read {rows m t} (h : Staging.step s.sys (.read rows (s.classify c rows m).kept) = some t) :
      Moved c s (.read rows m) t
  | other {a t} (hread : a.isRead = false) (h : Staging.step s.sys a = some t) :
      Moved c s (.other a) t
  | sweep {now} : Moved c s (.sweep now) s.sys

theorem Moved.of_step {c : Classifier} {s s' : Flusher} {mv : Move}
    (h : s.step c mv = some s') : Moved c s mv s'.sys := by
  cases mv with
  | read rows m =>
    obtain ⟨t, ht, rfl⟩ := Option.map_eq_some_iff.mp h
    exact .read ht
  | other a =>
    simp only [Flusher.step] at h
    split at h
    · cases h
    · next hread =>
      obtain ⟨t, ht, rfl⟩ := Option.map_eq_some_iff.mp h
      exact .other (by simpa using hread) ht
  | sweep now => cases h; exact .sweep

/-! ### What a chunk moves -/

/-- A chunk stores kept copies of its rows, deletes its rows, and stores the kept copies of every row it
    deletes, or of the row that one is a copy of. -/
structure Moves (read kept : List Span) (c : Chunk) : Prop where
  copies : ∀ k ∈ c.stores, k ∈ kept ∧ ∃ u ∈ c.spans, u.id = k.id
  rows : ∀ u ∈ c.spans, u ∈ (dropReplayedSpans read).unique ∧ c.deletes u = true
  handles : ∀ r ∈ read, c.deletes r = true →
    ∃ f ∈ c.spans, (f = r ∨ Replays f r) ∧ ∀ k ∈ kept, k.id = f.id → k ∈ c.stores

/-- The trace is one of a whole-trace chunk, or the one of a part. -/
def Chunk.names (c : Chunk) (t : String) : Bool :=
  match c.part with
  | none => decide (t ∈ c.traceIDs)
  | some p => decide (p.traceID = t)

variable {c : Chunk} {r : Span}

theorem Chunk.names_of_deletes (h : c.deletes r = true) :
    c.names r.traceID = true := by
  cases hp : c.part with
  | none =>
    simp only [Chunk.deletes, hp] at h
    simpa only [Chunk.names, hp] using h
  | some p =>
    simp only [Chunk.deletes, hp, Bool.and_eq_true, decide_eq_true_eq] at h
    simp only [Chunk.names, hp, decide_eq_true_eq]
    exact h.2.symm

variable {k : Span}

theorem Chunk.interesting_of_stores (h : k ∈ c.stores) : k ∈ c.interesting := by
  unfold Chunk.stores at h
  split at h
  · exact absurd h not_mem_nil
  · exact h

variable {t : String}

section flush
variable {ids : List String} {read kept : List Span} {maxRows : ℕ}

/-- A chunk of a flush is a whole-trace chunk, or a part of one of its traces. -/
theorem mem_flushChunks (hnd : (read.map Span.id).Nodup)
    (hv : Verdict (dropReplayedSpans read).unique kept)
    (h : c ∈ flushChunksOf maxRows ids read kept) :
    ∃ c₀, c = c₀.addReplayedRows (dropReplayedSpans read).replayed ∧
      (WholeOf ids (dropReplayedSpans read).unique kept c₀ ∨
        ∃ id ∈ ids, PartOf id (ofTrace id (dropReplayedSpans read).unique) (ofTrace id kept) c₀ ∧
          c₀.Copies (ofTrace id kept)) := by
  obtain ⟨c₀, hc₀, rfl⟩ := mem_map.mp h
  have hnd' : ((dropReplayedSpans read).unique.map Span.id).Nodup :=
    hnd.sublist ((unique_sublist read).map _)
  refine ⟨c₀, rfl, ?_⟩
  rcases mem_stagingChunks hc₀ with hw | ⟨id, hid, hparts⟩
  · exact .inl hw
  · refine .inr ⟨id, hid, traceParts_spec ?_ ?_ (fun s hs => (mem_ofTrace.mp hs).2) c₀ hparts,
      traceParts_copies (fun k hk => ?_) c₀ hparts⟩
    · exact hnd'.sublist (filter_sublist.map _)
    · exact hv.1.sublist (filter_sublist.map _)
    · obtain ⟨hkept, ht⟩ := mem_ofTrace.mp hk
      obtain ⟨x, hx, hxk, hxt⟩ := hv.traceID hkept
      exact ⟨x, mem_ofTrace.mpr ⟨hx, hxt.trans ht⟩, hxk⟩

theorem flushChunks_moves (hnd : (read.map Span.id).Nodup)
    (hv : Verdict (dropReplayedSpans read).unique kept) :
    ∀ c ∈ flushChunksOf maxRows ids read kept, Moves read kept c := by
  intro c hc
  obtain ⟨c₀, rfl, hc₀⟩ := mem_flushChunks hnd hv hc
  have hcut : Cut ids read kept (c₀.addReplayedRows (dropReplayedSpans read).replayed) :=
    ⟨c₀, hc₀.imp_right fun ⟨id, _, hp, _⟩ => ⟨id, hp⟩, rfl⟩
  have hhandles : ∀ r ∈ read,
      (c₀.addReplayedRows (dropReplayedSpans read).replayed).deletes r = true → _ := fun r hr hdel =>
    hcut.handles (fun a ha b hb => inj_on_of_nodup_map hnd ha hb) hv hr hdel
  rcases hc₀ with hw | ⟨id, -, hp, hcopies⟩
  · have hspans : ∀ u, u ∈ c₀.spans ↔ u ∈ (dropReplayedSpans read).unique ∧ u.traceID ∈ c₀.traceIDs :=
      fun u => by rw [hw.spans, mem_flatMap_ofTrace]
    refine ⟨fun k hk => ?_, fun u hu => ?_, hhandles⟩
    · have hk' := Chunk.interesting_of_stores hk
      change k ∈ c₀.interesting at hk'
      rw [hw.interesting, mem_flatMap_ofTrace] at hk'
      obtain ⟨x, hx, hxk, hxt⟩ := hv.traceID hk'.1
      exact ⟨hk'.1, x, (hspans x).mpr ⟨hx, hxt ▸ hk'.2⟩, hxk⟩
    · obtain ⟨hu, ht⟩ := (hspans u).mp hu
      refine ⟨hu, ?_⟩
      simp only [Chunk.deletes, Chunk.addReplayedRows, hw.part, Option.map_none, decide_eq_true_eq]
      exact ht
  · refine ⟨fun k hk => ?_, fun u hu => ?_, hhandles⟩
    · have hk' := Chunk.interesting_of_stores hk
      obtain ⟨hkept, u, hu, hid⟩ := hcopies k hk'
      exact ⟨(mem_ofTrace.mp hkept).1, u, hu, hid⟩
    · obtain ⟨huniq, ht⟩ := mem_ofTrace.mp (hp.staged u hu)
      exact ⟨huniq, hp.deletes_iff.mpr ⟨.inl (mem_map_of_mem hu), ht⟩⟩

theorem flushChunks_names (hnd : (read.map Span.id).Nodup)
    (hv : Verdict (dropReplayedSpans read).unique kept) (h : c ∈ flushChunks ids read kept)
    (ht : c.names t = true) : t ∈ ids := by
  obtain ⟨c₀, rfl, hw | ⟨id, hid, hp, -⟩⟩ := mem_flushChunks hnd hv h
  · simp only [Chunk.names, Chunk.addReplayedRows, hw.part, Option.map_none,
      decide_eq_true_eq] at ht
    exact hw.ids t ht
  · obtain ⟨p, hp', hpt, -⟩ := hp.part
    simp only [Chunk.names, Chunk.addReplayedRows, hp', Option.map_some, decide_eq_true_eq] at ht
    rwa [← ht, hpt]

/-- Every row of a trace of the flush leaves with one of its chunks. -/
theorem flushChunks_covers (hnd : (read.map Span.id).Nodup)
    (hv : Verdict (dropReplayedSpans read).unique kept) (ht : r.traceID ∈ ids) (hr : r ∈ read) :
    ∃ c ∈ flushChunks ids read kept, c.deletes r = true := by
  have hcovers : Covered r.traceID _ (stagingChunks ids (dropReplayedSpans read).unique kept
    stagingChunkRows) := (chunksFrom_packs ids {}).covers rfl (.inr ht)
  rcases hcovers with ⟨c, hc, hpart, hin⟩ | hall
  · refine ⟨_, mem_map_of_mem hc, ?_⟩
    simp only [Chunk.deletes, Chunk.addReplayedRows, hpart, Option.map_none, decide_eq_true_eq]
    exact hin
  -- the part that holds the row, or the row it is a copy of
  · have hpart : ∀ f ∈ (dropReplayedSpans read).unique, f.traceID = r.traceID →
        (f = r ∨ r.id ∈ (dropReplayedSpans read).replayed f.id) →
        ∃ c ∈ flushChunks ids read kept, c.deletes r = true := by
      intro f hf hft hfr
      have hrow : f ∈ ofTrace r.traceID (dropReplayedSpans read).unique := mem_ofTrace.mpr ⟨hf, hft⟩
      obtain ⟨c, hc, hfc⟩ := mem_flatMap.mp
        ((traceParts_spans _ (ofTrace r.traceID kept) stagingChunkRows).mem_iff.mpr hrow)
      have hnd' : ((ofTrace r.traceID (dropReplayedSpans read).unique).map Span.id).Nodup :=
        hnd.sublist ((filter_sublist.trans (unique_sublist read)).map _)
      have hp := traceParts_spec hnd' (hv.1.sublist (filter_sublist.map _))
        (fun s hs => (mem_ofTrace.mp hs).2) c hc
      refine ⟨_, mem_map_of_mem (hall c hc), hp.deletes_iff.mpr ⟨?_, rfl⟩⟩
      rcases hfr with rfl | hrep
      · exact .inl (mem_map_of_mem hfc)
      · exact .inr ⟨f, hfc, hrep⟩
    rcases mem_unique_or_replayed hr with hu | ⟨f, hf, hrep, hfr⟩
    · exact hpart r hu rfl (.inl rfl)
    · exact hpart f hf (congrArg (fun k => k.2.1) hfr.key) (.inr hrep)

end flush

/-! ### The books of every run -/

/-- Ids are never reused, no row is both staged and stored, and a flush has read staged rows. -/
structure Books (s : System) : Prop where
  rows : Rows s
  bound : ∀ k ∈ s.spans, k.id < s.nextID
  apart : ∀ r ∈ s.staging, ∀ k ∈ s.spans, k.id ≠ r.id
  staged : ∀ {read kept chunks}, s.flush = .committing read kept chunks → ∀ r ∈ read, r ∈ s.staged
  verdict : ∀ {read kept chunks}, s.flush = .committing read kept chunks →
    Verdict (dropReplayedSpans read).unique kept
  moves : ∀ {read kept chunks}, s.flush = .committing read kept chunks → ∀ c ∈ chunks, Moves read kept c

theorem books_init : Books {} :=
  ⟨inv_init.rows, forall_mem_nil _, forall_mem_nil _, fun h => by simp at h,
    fun h => by simp at h, fun h => by simp at h⟩

variable {s : System}

theorem Books.stage (h : Books s) (now : ℤ) (records : List SpanRecord) :
    Books (s.insertSpansStaging now records) := by
  refine ⟨h.rows.insert now records, fun k hk => Nat.lt_add_right _ (h.bound k hk), fun r hr k hk => ?_,
    fun hf r hr => mem_append_left _ (h.staged hf r hr), h.verdict, h.moves⟩
  rcases mem_append.mp hr with hr | hr
  · exact h.apart r hr k hk
  · have := h.bound k hk
    have := (mem_newRows hr).1
    omega

theorem Books.flush (h : Books s) {f : Flush}
    (hf : ∀ {read kept chunks}, f ≠ .committing read kept chunks) : Books { s with flush := f } :=
  ⟨⟨h.rows.nodup, h.rows.bound, h.rows.staging⟩, h.bound, h.apart, fun he => absurd he hf,
    fun he => absurd he hf, fun he => absurd he hf⟩

variable {ids : List String}

variable {rows kept : List Span}

theorem nodup_read (h : Books s) (hrows : rows.Perm (stagingSpansByTraceIDs s.staging ids)) :
    (rows.map Span.id).Nodup :=
  (hrows.map Span.id).nodup_iff.mpr
    (h.rows.nodup.sublist ((filter_sublist.trans h.rows.staging).map _))

theorem Books.read (h : Books s) (hrows : rows.Perm (stagingSpansByTraceIDs s.staging ids))
    (hkept : Verdict (dropReplayedSpans rows).unique kept) :
    Books { s with flush := .committing rows kept (flushChunks ids rows kept) } := by
  refine ⟨⟨h.rows.nodup, h.rows.bound, h.rows.staging⟩, h.bound, h.apart, fun hf r hr => ?_,
    fun hf => ?_, fun hf => ?_⟩
  · cases hf
    exact h.rows.staging.subset (mem_filter.mp (hrows.subset hr)).1
  · cases hf
    exact hkept
  · cases hf
    exact flushChunks_moves (nodup_read h hrows) hkept

/-- The row a chunk stores a copy of leaves staging with it. -/
theorem Books.stored_deleted (h : Books s) {read : List Span} {rest : List Chunk}
    (hf : s.flush = .committing read kept (c :: rest)) (hr : r ∈ s.staged) (hk : k ∈ c.stores)
    (hid : k.id = r.id) : c.deletes r = true := by
  have hm := h.moves hf c mem_cons_self
  obtain ⟨-, u, hu, huk⟩ := hm.copies k hk
  obtain ⟨huniq, hdel⟩ := hm.rows u hu
  rwa [← h.rows.eq_of_id (h.staged hf u (unique_subset huniq)) hr (huk.trans hid)]

theorem Books.commit (h : Books s) {read : List Span} {rest : List Chunk}
    (hf : s.flush = .committing read kept (c :: rest)) :
    Books { s.commitChunk read kept c with flush := .committing read kept rest } := by
  have hm := h.moves hf c mem_cons_self
  refine ⟨⟨h.rows.nodup, h.rows.bound, filter_sublist.trans h.rows.staging⟩, fun k hk => ?_,
    fun r hr k hk => ?_, fun hf' => ?_, fun hf' => ?_, fun hf' => ?_⟩
  · rcases mem_append.mp hk with hk | hk
    · exact h.bound k hk
    · obtain ⟨-, u, hu, huk⟩ := hm.copies k hk
      exact huk ▸ h.rows.bound u (h.staged hf u (unique_subset (hm.rows u hu).1))
  · obtain ⟨hr, hnot⟩ := mem_filter.mp hr
    rcases mem_append.mp hk with hk | hk
    · exact h.apart r hr k hk
    · intro hid
      have hdel := h.stored_deleted hf (h.rows.staging.subset hr) hk hid
      simp [hdel] at hnot
  · cases hf'
    exact h.staged hf
  · cases hf'
    exact h.verdict hf
  · cases hf'
    exact fun d hd => h.moves hf d (mem_cons_of_mem _ hd)

theorem Books.collect (h : Books s) (cutoff : ℤ) (ids : List ℕ) :
    Books (s.collect cutoff ids) :=
  ⟨⟨h.rows.nodup, h.rows.bound, filter_sublist.trans h.rows.staging⟩, h.bound,
    fun r hr => h.apart r (mem_filter.mp hr).1, h.staged, h.verdict, h.moves⟩

variable {s' : System}

theorem books_step {a : Action} (h : Books s) (hs : step s a = some s') :
    Books s' := by
  cases Step.of_step hs with
  | stage => exact h.stage ..
  | nothingReady => exact h
  | picked _ | finished => exact h.flush nofun
  | read _ hrows hkept => exact h.read hrows hkept
  | commit hf => exact h.commit hf
  | collect => exact h.collect ..

theorem books_moved {c : Classifier} {s : Flusher} {mv : Move} {t : System} (h : Books s.sys)
    (hm : Moved c s mv t) : Books t := by
  cases hm with
  | read hs | other _ hs => exact books_step h hs
  | sweep => exact h

/-! ### One trace -/

/-- The span of the row is in the spans table: its own copy, or that of the row it is a copy of. -/
def Stored (s : System) (rows : List Span) (r : Span) : Prop :=
  ∃ f ∈ rows, (f = r ∨ Replays f r) ∧ ∃ k ∈ s.spans, Retouched f k

/-- What a verdict has come to: the rows that have left are stored, or none is. -/
def Outcome (rows : List Span) (s : System) : Bool → Prop
  | true => ∀ r ∈ rows, r ∉ s.staging → Stored s rows r
  | false => ∀ r ∈ rows, ∀ k ∈ s.spans, k.id ≠ r.id

/-- Every row of the trace has a kept copy, or none has. -/
def KeepsAll (t : String) (rows read kept : List Span) : Bool → Prop
  | true => ∀ f ∈ (dropReplayedSpans read).unique, f.traceID = t → ∃ k ∈ kept, k.id = f.id
  | false => ∀ r ∈ rows, ∀ k ∈ kept, k.id ≠ r.id

/-- A flush that has read the trace: its verdict, and chunks for all rows still staged. -/
structure Decides (t : String) (rows : List Span) (must : Prop) (s : System) (read kept : List Span)
    (chunks : List Chunk) (keep : Bool) : Prop where
  known : ∀ r, r ∈ read ∧ r.traceID = t ↔ r ∈ rows
  verdict : KeepsAll t rows read kept keep
  must : must → keep = true
  covers : ∀ r ∈ s.staging, r.traceID = t → ∃ c ∈ chunks, c.deletes r = true

/-- How far the trace has come. -/
inductive Progress (t : String) (rows : List Span) (must : Prop) (s : System) : Prop
  | waiting (fresh : ∀ r ∈ rows, r ∈ s.staging)
      (spared : ∀ {read kept chunks}, s.flush = .committing read kept chunks →
        ∀ c ∈ chunks, c.names t = false)
  | moving {read kept chunks keep} (flush : s.flush = .committing read kept chunks)
      (decides : Decides t rows must s read kept chunks keep) (outcome : Outcome rows s keep)
  | settled {keep} (gone : ∀ r ∈ rows, r ∉ s.staging) (outcome : Outcome rows s keep)
      (must : must → keep = true)
      (ended : ∀ {read kept chunks}, s.flush = .committing read kept chunks → ∀ r ∈ rows, r ∉ read)

structure Watch (t : String) (rows : List Span) (must : Prop) (s : System) : Prop where
  books : Books s
  staged : ∀ r ∈ rows, r ∈ s.staged
  mine : ∀ r ∈ s.staging, r.traceID = t → r ∈ rows
  progress : Progress t rows must s

section trace
variable {t : String} {rows : List Span} {must : Prop} {s s' : System}

theorem Stored.mono (h : Stored s rows r) (hspans : ∀ k ∈ s.spans, k ∈ s'.spans) :
    Stored s' rows r := by
  obtain ⟨f, hf, hfr, k, hk, hret⟩ := h
  exact ⟨f, hf, hfr, k, hspans k hk, hret⟩

/-- Before a row has left, either verdict is still open. -/
theorem outcome_of_fresh (h : Books s) (hfresh : ∀ r ∈ rows, r ∈ s.staging) :
    ∀ keep, Outcome rows s keep
  | true => fun r hr hnot => absurd (hfresh r hr) hnot
  | false => fun r hr k hk => h.apart r (hfresh r hr) k hk

/-- Steps that leave the spans table, the flush and the rows of the trace alone. -/
theorem Progress.frame (h : Progress t rows must s) (hrows : ∀ r ∈ rows, r.traceID = t)
    (hstaging : ∀ r, r.traceID = t → (r ∈ s'.staging ↔ r ∈ s.staging))
    (hspans : s'.spans = s.spans) (hflush : s'.flush = s.flush) : Progress t rows must s' := by
  have hiff : ∀ r ∈ rows, (r ∈ s'.staging ↔ r ∈ s.staging) := fun r hr => hstaging r (hrows r hr)
  have hout : ∀ keep, Outcome rows s keep → Outcome rows s' keep := by
    intro keep ho
    cases keep with
    | true => exact fun r hr hnot =>
        (ho r hr fun hin => hnot ((hiff r hr).mpr hin)).mono fun k hk => hspans ▸ hk
    | false => exact fun r hr k hk => ho r hr k (hspans ▸ hk)
  cases h with
  | waiting fresh spared =>
    exact .waiting (fun r hr => (hiff r hr).mpr (fresh r hr)) fun hf => spared (hflush ▸ hf)
  | moving flush decides outcome =>
    refine .moving (hflush ▸ flush) ⟨decides.known, decides.verdict, decides.must, ?_⟩ (hout _ outcome)
    exact fun r hr ht => decides.covers r ((hstaging r ht).mp hr) ht
  | settled gone outcome must ended =>
    exact .settled (fun r hr hin => gone r hr ((hiff r hr).mp hin)) (hout _ outcome) must
      fun hf => ended (hflush ▸ hf)

variable {kept : List Span}

/-- The copy a verdict stores is that of the row. -/
theorem retouched_of_id (hb : Books s) {read : List Span} {chunks : List Chunk}
    (hf : s.flush = .committing read kept chunks) {f : Span}
    (hfu : f ∈ (dropReplayedSpans read).unique) (hk : k ∈ kept) (hid : k.id = f.id) :
    Retouched f k := by
  obtain ⟨x, hx, hxk⟩ := (hb.verdict hf).2 k hk
  have hxid : x.id = f.id := by
    rw [← hid, hxk]
  have heq : x = f := hb.rows.eq_of_id (hb.staged hf x (unique_subset hx))
    (hb.staged hf f (unique_subset hfu)) hxid
  rw [Retouched, ← heq]
  exact hxk

theorem Decides.commit (hb : Books s) {read : List Span} {rest : List Chunk} {keep : Bool}
    (hf : s.flush = .committing read kept (c :: rest))
    (h : Decides t rows must s read kept (c :: rest) keep) (ho : Outcome rows s keep) :
    Progress t rows must
      { s.commitChunk read kept c with flush := .committing read kept rest } := by
  have hm := hb.moves hf c mem_cons_self
  refine .moving rfl ⟨h.known, h.verdict, h.must, fun r hr ht => ?_⟩ ?_
  · obtain ⟨hr, hnot⟩ := mem_filter.mp hr
    obtain ⟨d, hd, hdel⟩ := h.covers r hr ht
    rcases mem_cons.mp hd with rfl | hd
    · simp [hdel] at hnot
    · exact ⟨d, hd, hdel⟩
  · cases keep with
    | false =>
      intro r hr k hk
      rcases mem_append.mp hk with hk | hk
      · exact ho r hr k hk
      · exact h.verdict r hr k (hm.copies k hk).1
    | true =>
      intro r hr hnot
      by_cases hin : r ∈ s.staging
      -- the row leaves with this chunk, which stores the copy the verdict keeps
      · have hdel : c.deletes r = true := by
          by_contra hdel
          exact hnot (mem_filter.mpr ⟨hin, by simpa using hdel⟩)
        obtain ⟨hread, ht⟩ := (h.known r).mpr hr
        obtain ⟨f, hfc, hfr, hstores⟩ := hm.handles r hread hdel
        have hfu := (hm.rows f hfc).1
        have hft : f.traceID = t := by
          rcases hfr with rfl | hrep
          · exact ht
          · exact (congrArg (fun k => k.2.1) hrep.key).trans ht
        obtain ⟨k, hk, hkid⟩ := h.verdict f hfu hft
        exact ⟨f, (h.known f).mp ⟨unique_subset hfu, hft⟩, hfr, k,
          mem_append_right _ (hstores k hk hkid), retouched_of_id hb hf hfu hk hkid⟩
      · exact (ho r hr hin).mono fun k hk => mem_append_left _ hk

/-- A flush that has no chunk left for the trace has settled it. -/
theorem Decides.settle {read : List Span} {chunks : List Chunk} {keep : Bool}
    (hrows : ∀ r ∈ rows, r.traceID = t) (h : Decides t rows must s read kept chunks keep)
    (ho : Outcome rows s keep) (hnone : ∀ c ∈ chunks, c.names t = false) :
    Progress t rows must { s with flush := .idle } := by
  refine .settled (fun r hr hin => ?_) ho h.must fun hf => by simp at hf
  obtain ⟨c, hc, hdel⟩ := h.covers r hin (hrows r hr)
  have hnames := Chunk.names_of_deletes hdel
  rw [hrows r hr, hnone c hc] at hnames
  cases hnames

theorem Progress.commit (h : Progress t rows must s) (hb : Books s)
    (hrows : ∀ r ∈ rows, r.traceID = t ∧ r ∈ s.staged) {read : List Span} {rest : List Chunk}
    (hf : s.flush = .committing read kept (c :: rest)) :
    Progress t rows must { s.commitChunk read kept c with flush := .committing read kept rest } := by
  have hm := hb.moves hf c mem_cons_self
  cases h with
  | waiting fresh spared =>
    have hspare : ∀ r ∈ rows, c.deletes r = false := by
      intro r hr
      by_contra hdel
      have hnames := Chunk.names_of_deletes (by simpa using hdel : c.deletes r = true)
      rw [(hrows r hr).1, spared hf c mem_cons_self] at hnames
      cases hnames
    refine .waiting (fun r hr => mem_filter.mpr ⟨fresh r hr, by simp [hspare r hr]⟩) ?_
    intro read' kept' chunks' hf'
    cases hf'
    exact fun d hd => spared hf d (mem_cons_of_mem _ hd)
  | moving flush decides outcome =>
    rw [hf] at flush
    cases flush
    exact decides.commit hb hf outcome
  | @settled keep gone outcome must ended =>
    have hstores : ∀ r ∈ rows, ∀ k ∈ c.stores, k.id ≠ r.id := by
      intro r hr k hk hid
      obtain ⟨-, u, hu, huk⟩ := hm.copies k hk
      have hread := unique_subset (hm.rows u hu).1
      rw [hb.rows.eq_of_id (hb.staged hf u hread) (hrows r hr).2 (huk.trans hid)] at hread
      exact ended hf r hr hread
    refine @Progress.settled t rows _ _ keep (fun r hr hin => gone r hr (mem_filter.mp hin).1)
      ?_ must ?_
    · cases keep with
      | true => exact fun r hr _ =>
          (outcome r hr (gone r hr)).mono fun k hk => mem_append_left _ hk
      | false =>
        intro r hr k hk
        rcases mem_append.mp hk with hk | hk
        · exact outcome r hr k hk
        · exact hstores r hr k hk
    · intro read' kept' chunks' hf'
      cases hf'
      exact ended hf

/-! ### Reading the trace -/

/-- Whatever the policy and the die say, classification gives an admissible answer. -/
theorem classify_verdict (c : Classifier) (m : Moment) (floors : Floors) {spans : List Span}
    (h : (spans.map Span.id).Nodup) :
    Verdict spans (classifySpansForStorage c m floors spans).kept := by
  obtain ⟨bare, hall, hwhole, -⟩ := classify_whole c m floors h
  refine ⟨?_, fun k hk => ?_⟩
  · rw [map_id_of_forall₂ hall]
    exact hwhole.nodup
  · obtain ⟨b, hb, hret⟩ := exists_of_forall₂_right hall hk
    exact ⟨b, hwhole.sub b hb, hret⟩

/-- One classification keeps all rows of the trace or none, and all when one of them is interesting. -/
theorem classify_decides (c : Classifier) (m : Moment) (floors : Floors) {read : List Span}
    (hnd : (read.map Span.id).Nodup) (hknown : ∀ r, r ∈ read ∧ r.traceID = t ↔ r ∈ rows)
    (hcopies : ∀ a ∈ rows, ∀ b ∈ rows, Replays a b → a.record = b.record)
    (hmust : must → ∃ i ∈ rows, c.interesting m i = true) :
    ∃ keep, KeepsAll t rows read
        (classifySpansForStorage c m floors (dropReplayedSpans read).unique).kept keep ∧
      (must → keep = true) := by
  obtain ⟨bare, hall, hwhole, hin⟩ := classify_whole c m floors
    (hnd.sublist ((unique_sublist read).map Span.id))
  by_cases hb : ∃ b ∈ bare, b.traceID = t
  · obtain ⟨b, hb, hbt⟩ := hb
    refine ⟨true, fun f hf hft => ?_, fun _ => rfl⟩
    obtain ⟨k, hk, hret⟩ := exists_of_forall₂_left hall (hwhole.whole f hf b hb (hft.trans hbt.symm))
    exact ⟨k, hk, hret.id_eq⟩
  · refine ⟨false, fun r hr k hk hid => ?_, fun hm => ?_⟩
    · obtain ⟨b, hbare, hret⟩ := exists_of_forall₂_right hall hk
      obtain ⟨hread, ht⟩ := (hknown r).mpr hr
      have heq : b = r := inj_on_of_nodup_map hnd (unique_subset (hwhole.sub b hbare)) hread
        (hret.id_eq.symm.trans hid)
      exact hb ⟨b, hbare, heq ▸ ht⟩
    -- the interesting row, or the row it is a copy of, was classified
    · obtain ⟨i, hi, hint⟩ := hmust hm
      obtain ⟨hread, ht⟩ := (hknown i).mpr hi
      rcases mem_unique_or_replayed hread with hu | ⟨f, hf, -, hfi⟩
      · exact absurd ⟨i, hin i hu hint, ht⟩ hb
      · have hft : f.traceID = t := (congrArg (fun k => k.2.1) hfi.key).trans ht
        have hrec := hcopies f ((hknown f).mp ⟨unique_subset hf, hft⟩) i hi hfi
        have hfint : c.interesting m f = true := by
          rw [← hint, Classifier.interesting, Classifier.interesting, Classifier.dirty,
            Classifier.dirty, hrec]
        exact absurd ⟨f, hin f hf hfint, hft⟩ hb

theorem Progress.read (h : Progress t rows must s) (hw : Watch t rows must s)
    (hrows : ∀ r ∈ rows, r.traceID = t)
    (hcopies : ∀ a ∈ rows, ∀ b ∈ rows, Replays a b → a.record = b.record) {c : Classifier}
    {m : Moment} (hmust : must → ∃ i ∈ rows, c.interesting m i = true) {floors : Floors}
    {read : List Span} (hf : s.flush = .picked ids)
    (hread : read.Perm (stagingSpansByTraceIDs s.staging ids)) :
    let kept := (classifySpansForStorage c m floors (dropReplayedSpans read).unique).kept
    Progress t rows must { s with flush := .committing read kept (flushChunks ids read kept) } := by
  intro kept
  have hnd : (read.map Span.id).Nodup := nodup_read hw.books hread
  have hmem : ∀ r, r ∈ read ↔ r ∈ s.staging ∧ r.traceID ∈ ids := fun r => by
    rw [hread.mem_iff, stagingSpansByTraceIDs, mem_filter, decide_eq_true_eq]
  have hv : Verdict (dropReplayedSpans read).unique kept :=
    classify_verdict c m floors (hnd.sublist ((unique_sublist read).map Span.id))
  cases h with
  | waiting fresh spared =>
    by_cases ht : t ∈ ids
    · have hknown : ∀ r, r ∈ read ∧ r.traceID = t ↔ r ∈ rows := by
        intro r
        constructor
        · rintro ⟨hr, hrt⟩
          exact hw.mine r ((hmem r).mp hr).1 hrt
        · intro hr
          exact ⟨(hmem r).mpr ⟨fresh r hr, (hrows r hr).symm ▸ ht⟩, hrows r hr⟩
      obtain ⟨keep, hkeep, hm⟩ := classify_decides c m floors hnd hknown hcopies hmust
      refine .moving rfl ⟨hknown, hkeep, hm, fun r hr hrt => ?_⟩ (outcome_of_fresh hw.books fresh keep)
      have hrt' : r.traceID ∈ ids := hrt.symm ▸ ht
      exact flushChunks_covers hnd hv hrt' ((hmem r).mpr ⟨hr, hrt'⟩)
    · refine .waiting fresh fun hf' d hd => ?_
      cases hf'
      by_contra hnames
      exact ht (flushChunks_names hnd hv hd (by simpa using hnames))
  | moving flush _ _ =>
    rw [hf] at flush
    cases flush
  | settled gone outcome must _ =>
    refine .settled gone outcome must fun hf' r hr hin => ?_
    cases hf'
    exact gone r hr ((hmem r).mp hin).1

/-! ### The other steps -/

/-- The flush is not between its read and its end, before and after. -/
theorem Progress.calm (h : Progress t rows must s) {f : Flush}
    (hs : ∀ {read kept chunks}, s.flush ≠ .committing read kept chunks)
    (hf : ∀ {read kept chunks}, f ≠ .committing read kept chunks) :
    Progress t rows must { s with flush := f } := by
  cases h with
  | waiting fresh _ => exact .waiting fresh fun he => absurd he hf
  | moving flush _ _ => exact absurd flush hs
  | settled gone outcome must _ => exact .settled gone outcome must fun he => absurd he hf

/-- A flush ends: no chunk of the trace is left, or no row of the trace has left. -/
theorem Progress.ended (h : Progress t rows must s) (hrows : ∀ r ∈ rows, r.traceID = t)
    (hend : ∀ {read kept chunks}, s.flush = .committing read kept chunks →
      (∃ c ∈ chunks, c.names t = true) → ∀ r ∈ read, r.traceID = t → r ∈ s.staging) :
    Progress t rows must { s with flush := .idle } := by
  cases h with
  | waiting fresh _ => exact .waiting fresh fun he => by simp at he
  | @moving read kept chunks keep flush decides outcome =>
    by_cases hleft : ∃ c ∈ chunks, c.names t = true
    · refine .waiting (fun r hr => ?_) fun he => by simp at he
      obtain ⟨hread, ht⟩ := (decides.known r).mpr hr
      exact hend flush hleft r hread ht
    · refine decides.settle hrows outcome fun c hc => ?_
      by_contra hnames
      exact hleft ⟨c, hc, by simpa using hnames⟩
  | settled gone outcome must _ => exact .settled gone outcome must fun he => by simp at he

end trace

theorem step_read (h : step s (.read rows kept) = some s') :
    ∃ ids, s.flush = .picked ids ∧ rows.Perm (stagingSpansByTraceIDs s.staging ids) ∧
      s' = { s with flush := .committing rows kept (flushChunks ids rows kept) } := by
  simp only [step] at h
  split at h
  · next ids hf =>
    split at h
    · next hc => cases h; exact ⟨ids, hf, hc.1, rfl⟩
    · cases h
  · cases h

theorem step_commit (h : step s .commit = some s') :
    (∃ read kept, s.flush = .committing read kept [] ∧ s' = { s with flush := .idle }) ∨
      ∃ read kept c rest, s.flush = .committing read kept (c :: rest) ∧
        s' = { s.commitChunk read kept c with flush := .committing read kept rest } := by
  simp only [step] at h
  split at h
  · next read kept hf => cases h; exact .inl ⟨read, kept, hf, rfl⟩
  · next read kept c rest hf => cases h; exact .inr ⟨read, kept, c, rest, hf, rfl⟩
  · cases h

variable {cutoff : ℤ}

theorem step_ready {limit : ℕ} (h : step s (.ready cutoff limit ids) = some s') :
    s' = s ∨ s.flush = .idle ∧ s' = { s with flush := .picked ids } := by
  simp only [step] at h
  split at h
  · next hf =>
    split at h
    · cases h
      split
      · exact .inl rfl
      · exact .inr ⟨hf, rfl⟩
    · cases h
  · cases h

/-! ### Runs -/

/-- No further span of the trace arrives, and the hard cleanup leaves its rows. -/
def Alone (t : String) (s : Flusher) : Move → Prop
  | .other (.stage _ records) => ∀ r ∈ records, r.traceID ≠ t
  | .other (.collect cutoff ids) => ∀ r ∈ s.sys.staging, r.traceID = t →
      (decide (r.ingestedAt ≤ cutoff) && decide (r.id ∈ ids)) = false
  | _ => True

/-- No flush fails after some row of the trace has left with it and while a chunk of the trace is
    left. -/
def Unbroken (t : String) (s : Flusher) : Move → Prop
  | .other .fail =>
    match s.sys.flush with
    | .committing read _ chunks => (∃ c ∈ chunks, c.names t = true) →
        ∀ r ∈ read, r.traceID = t → r ∈ s.sys.staging
    | _ => True
  | _ => True

/-- A row is interesting whenever a flush of the run classifies it: it is an error or a slow span, or its
    project is verbose at every read. -/
def Interesting (c : Classifier) (as : List Move) (r : Span) : Prop :=
  c.dirty r = true ∨ ∀ rows m, Move.read rows m ∈ as → m.verbose r.record.projectID = true

/-- What the reads of a run say of a trace that must be kept. -/
def Shows (c : Classifier) (rows : List Span) (must : Prop) (_ : Flusher) : Move → Prop
  | .read _ m => must → ∃ i ∈ rows, c.interesting m i = true
  | _ => True

theorem interesting_shows (c : Classifier) (rows : List Span) (as : List Move) :
    ∀ mv ∈ as, ∀ s, Shows c rows (∃ r ∈ rows, Interesting c as r) s mv := by
  intro mv hmv s
  cases mv with
  | read read m =>
    rintro ⟨r, hr, hdirty | hverbose⟩
    · exact ⟨r, hr, by simp [Classifier.interesting, hdirty]⟩
    · exact ⟨r, hr, by simp [Classifier.interesting, hverbose read m hmv]⟩
  | other a => trivial
  | sweep now => trivial

theorem mem_insertSpansStaging {now : ℤ} {records : List SpanRecord}
    (h : ∀ r ∈ records, r.traceID ≠ t) (r : Span) (hr : r.traceID = t) :
    r ∈ (s.insertSpansStaging now records).staging ↔ r ∈ s.staging := by
  refine ⟨fun hin => ?_, fun hin => mem_append_left _ hin⟩
  rcases mem_append.mp hin with hin | hin
  · exact hin
  · exact absurd hr (h r.record (mem_newRows hin).2.2)

theorem mem_collect {ids : List ℕ} (h : ∀ r ∈ s.staging, r.traceID = t →
      (decide (r.ingestedAt ≤ cutoff) && decide (r.id ∈ ids)) = false) (r : Span)
    (hr : r.traceID = t) :
    r ∈ (s.collect cutoff ids).staging ↔ r ∈ s.staging := by
  refine ⟨fun hin => (mem_filter.mp hin).1, fun hin => mem_filter.mpr ⟨hin, ?_⟩⟩
  simp [h r hin hr]

theorem watch_step {c : Classifier} {must : Prop} (hrows : ∀ r ∈ rows, r.traceID = t)
    (hcopies : ∀ a ∈ rows, ∀ b ∈ rows, Replays a b → a.record = b.record) (s : Flusher) (mv : Move)
    (s' : Flusher) (h : Watch t rows must s.sys)
    (hc : (Alone t s mv ∧ Unbroken t s mv) ∧ Shows c rows must s mv) (hs : s.step c mv = some s') :
    Watch t rows must s'.sys := by
  obtain ⟨⟨halone, hunbroken⟩, hshows⟩ := hc
  have hm := Moved.of_step hs
  have hbooks := books_moved h.books hm
  generalize s'.sys = t' at hm hbooks
  cases hm with
  | sweep => exact h
  | read hr =>
    obtain ⟨ids, hf, hperm, rfl⟩ := step_read hr
    exact ⟨hbooks, h.staged, h.mine, h.progress.read h hrows hcopies hshows hf hperm⟩
  | @other a _ hread hr =>
    cases a with
    | stage now records =>
      cases hr
      refine ⟨hbooks, fun r hr => mem_append_left _ (h.staged r hr), fun r hr ht => ?_,
        h.progress.frame hrows (mem_insertSpansStaging halone) rfl rfl⟩
      exact h.mine r ((mem_insertSpansStaging halone r ht).mp hr) ht
    | ready cutoff limit ids =>
      rcases step_ready hr with rfl | ⟨hf, rfl⟩
      · exact h
      · exact ⟨hbooks, h.staged, h.mine, h.progress.calm (by simp [hf]) nofun⟩
    | read rows kept => cases hread
    | commit =>
      rcases step_commit hr with ⟨read, kept, hf, rfl⟩ | ⟨read, kept, d, rest, hf, rfl⟩
      · refine ⟨hbooks, h.staged, h.mine, h.progress.ended hrows fun hf' hleft => ?_⟩
        rw [hf] at hf'
        cases hf'
        obtain ⟨d, hd, -⟩ := hleft
        exact absurd hd not_mem_nil
      · exact ⟨hbooks, h.staged, fun r hr => h.mine r (mem_filter.mp hr).1,
          h.progress.commit h.books (fun r hr => ⟨hrows r hr, h.staged r hr⟩) hf⟩
    | fail =>
      simp only [step] at hr
      split at hr
      · cases hr
      · cases hr
        refine ⟨hbooks, h.staged, h.mine, h.progress.ended hrows fun hf => ?_⟩
        simpa only [Unbroken, hf] using hunbroken
    | collect cutoff ids =>
      cases hr
      exact ⟨hbooks, h.staged, fun r hr => h.mine r (mem_filter.mp hr).1,
        h.progress.frame hrows (mem_collect halone) rfl rfl⟩

theorem books_run {c : Classifier} {floors : Floors} {as : List Move} {s : Flusher}
    (h : run (Flusher.step c) ⟨{}, floors⟩ as = some s) : Books s.sys :=
  inv_run (I := fun s => Books s.sys) (fun _ _ _ hb hs => books_moved hb (Moved.of_step hs))
    books_init h

/-- No chunk of a flush on its way is about the trace. -/
def Unread (t : String) (s : Flusher) : Prop :=
  match s.sys.flush with
  | .committing _ _ chunks => ∀ c ∈ chunks, c.names t = false
  | _ => True

/-- CORRECT: take the rows of a trace that are staged, copies of a span being equal, when no flush is at
    work on them, and any run from there in which no further span of the trace arrives, the hard cleanup
    leaves it alone, and no flush fails between two parts of it. Once no row of it is staged any more,
    all of them are stored or none is, and all are if one of them is an error, slow or verbose span. -/
theorem whole_trace_stored (c : Classifier) (floors : Floors) (t : String) (before as : List Move)
    (s₀ s : Flusher) (h₀ : run (Flusher.step c) ⟨{}, floors⟩ before = some s₀) (hunread : Unread t s₀)
    (hcopies : ∀ a ∈ ofTrace t s₀.sys.staging, ∀ b ∈ ofTrace t s₀.sys.staging, Replays a b →
      a.record = b.record)
    (hc : Meets (Flusher.step c) (fun s mv => Alone t s mv ∧ Unbroken t s mv) s₀ as)
    (h : run (Flusher.step c) s₀ as = some s) (hdone : ofTrace t s.sys.staging = []) :
    ((∀ r ∈ ofTrace t s₀.sys.staging, Stored s.sys (ofTrace t s₀.sys.staging) r) ∨
      ∀ r ∈ ofTrace t s₀.sys.staging, ∀ k ∈ s.sys.spans, k.id ≠ r.id) ∧
    ((∃ r ∈ ofTrace t s₀.sys.staging, Interesting c as r) →
      ∀ r ∈ ofTrace t s₀.sys.staging, Stored s.sys (ofTrace t s₀.sys.staging) r) := by
  generalize hR : ofTrace t s₀.sys.staging = rows at *
  have hmem : ∀ r, r ∈ rows ↔ r ∈ s₀.sys.staging ∧ r.traceID = t := fun r => hR ▸ mem_ofTrace
  have hb : Books s₀.sys := books_run h₀
  have hstart : Watch t rows (∃ r ∈ rows, Interesting c as r) s₀.sys := by
    refine ⟨hb, fun r hr => hb.rows.staging.subset ((hmem r).mp hr).1,
      fun r hr ht => (hmem r).mpr ⟨hr, ht⟩, .waiting (fun r hr => ((hmem r).mp hr).1) fun hf => ?_⟩
    simpa only [Unread, hf] using hunread
  have hend : Watch t rows (∃ r ∈ rows, Interesting c as r) s.sys :=
    inv_run_meets (I := fun s => Watch t rows _ s.sys)
      (watch_step (fun r hr => ((hmem r).mp hr).2) hcopies) hstart
      (hc.and (meets_of_forall (interesting_shows c rows as))) h
  have hgone : ∀ r ∈ rows, r ∉ s.sys.staging := by
    intro r hr hin
    have hin' : r ∈ ofTrace t s.sys.staging := mem_ofTrace.mpr ⟨hin, ((hmem r).mp hr).2⟩
    rw [hdone] at hin'
    exact absurd hin' not_mem_nil
  -- the verdict that covered the rows
  have hverdict : ∃ keep, Outcome rows s.sys keep ∧
      ((∃ r ∈ rows, Interesting c as r) → keep = true) := by
    cases hend.progress with
    | waiting fresh _ => exact ⟨true, outcome_of_fresh hend.books fresh true, fun _ => rfl⟩
    | moving _ decides outcome => exact ⟨_, outcome, decides.must⟩
    | settled _ outcome must _ => exact ⟨_, outcome, must⟩
  obtain ⟨keep, hout, hmust⟩ := hverdict
  cases keep with
  | true => exact ⟨.inl fun r hr => hout r hr (hgone r hr), fun _ r hr => hout r hr (hgone r hr)⟩
  | false => exact ⟨.inr hout, fun hi => absurd (hmust hi) Bool.false_ne_true⟩

/-! ### A trace torn in two -/

/-- The flush has read and classified, and is about to commit. -/
def System.committing (s : System) (ids : List String) (rows kept : List Span) : System :=
  { s with flush := .committing rows kept (flushChunks ids rows kept) }

/-- The read of a flush is always possible: classification never gives an answer that is refused. -/
theorem Flusher.step_read {c : Classifier} {s : Flusher} {m : Moment}
    (hf : s.sys.flush = .picked ids) (hnd : (s.sys.staging.map Span.id).Nodup)
    (hrows : rows.Perm (stagingSpansByTraceIDs s.sys.staging ids)) :
    s.step c (.read rows m) = some
      ⟨s.sys.committing ids rows (s.classify c rows m).kept, (s.classify c rows m).floors⟩ := by
  have hv : Verdict (dropReplayedSpans rows).unique (s.classify c rows m).kept := by
    refine classify_verdict c m s.floors (List.Nodup.sublist ((unique_sublist rows).map _) ?_)
    exact (hrows.map Span.id).nodup_iff.mpr (hnd.sublist (filter_sublist.map _))
  have hstep : Staging.step s.sys (.read rows (s.classify c rows m).kept) =
      some (s.sys.committing ids rows (s.classify c rows m).kept) := by
    simp only [Staging.step, hf]
    exact if_pos ⟨hrows, hv⟩
  rw [Flusher.step, hstep, Option.map_some]

def classifier : Classifier := { slowThresholdUs := 1000000 }

/-- A trace of 151 spans, the first an error: 302 rows with the stored copies. -/
@[irreducible] def bigTrace : List SpanRecord :=
  { projectID := 1, traceID := "t", status := "error" } ::
    List.replicate 150 { projectID := 1, traceID := "t" }

/-- The trace is staged, and a flush picks it. -/
def pick : List Move := [.other (.stage 0 bigTrace), .other (.ready 10 200 ["t"])]

def pickedTrace : Flusher :=
  { sys := { ({} : System).insertSpansStaging 0 bigTrace with flush := .picked ["t"] } }

theorem step_ready_picked {limit : ℕ} {id : String} (hf : s.flush = .idle)
    (h : ReadyStagingTraceIDs s.staging cutoff limit (id :: ids)) :
    step s (.ready cutoff limit (id :: ids)) = some { s with flush := .picked (id :: ids) } := by
  simp [step, hf, h]

theorem pick_reaches : run (Flusher.step classifier) ⟨{}, {}⟩ pick = some pickedTrace := by
  have hready : ReadyStagingTraceIDs (({} : System).insertSpansStaging 0 bigTrace).staging 10 200
      ["t"] := by decide +kernel
  refine run_cons.mpr ⟨⟨({} : System).insertSpansStaging 0 bigTrace, {}⟩, rfl, ?_⟩
  refine run_cons.mpr ⟨pickedTrace, ?_, rfl⟩
  exact congrArg (Option.map fun t => Flusher.mk t {}) (step_ready_picked rfl hready)

/-- The first part, 150 rows with their copies, commits and the second fails. The next flush finds one
    row, which is no error. -/
def tearing : List Move :=
  [.other .commit, .other .fail, .other (.ready 20 200 ["t"]),
    .read [⟨151, { projectID := 1, traceID := "t" }, 0, none, false, false⟩] { now := 20 },
    .other .commit, .other .commit]

def firstRead : Classified := pickedTrace.classify classifier (newRows 0 1 bigTrace) { now := 10 }

def readTrace : Flusher :=
  ⟨pickedTrace.sys.committing ["t"] (newRows 0 1 bigTrace) firstRead.kept, firstRead.floors⟩

theorem tearing_leaves : ((run (Flusher.step classifier) readTrace tearing).map fun s =>
    (s.sys.staging, s.sys.collected, s.sys.spans.map Span.id)) = some ([], [], List.range' 1 150) := by
  decide +kernel

/-- All rows of the trace have left staging; 150 are stored, and the last one is not. -/
theorem torn_trace_half_stored :
    ∃ s, run (Flusher.step classifier) ⟨{}, {}⟩
        (pick ++ .read (newRows 0 1 bigTrace) { now := 10 } :: tearing) = some s ∧
      (∃ r ∈ newRows 0 1 bigTrace, r.record.status = "error" ∧ ∃ k ∈ s.sys.spans, k.id = r.id) ∧
      (∃ r ∈ newRows 0 1 bigTrace, ∀ k ∈ s.sys.spans, k.id ≠ r.id) ∧
      s.sys.staging = [] ∧ s.sys.collected = [] := by
  obtain ⟨s, hs, hleft⟩ := Option.map_eq_some_iff.mp tearing_leaves
  simp only [Prod.mk.injEq] at hleft
  obtain ⟨hstaging, hcollected, hspans⟩ := hleft
  have hids : ∀ i, (∃ k ∈ s.sys.spans, k.id = i) ↔ 1 ≤ i ∧ i < 151 := by
    intro i
    rw [← mem_map, hspans, mem_range'_1]
  have hrows : (newRows 0 1 bigTrace).Perm
      (stagingSpansByTraceIDs pickedTrace.sys.staging ["t"]) := by decide +kernel
  have hread : pickedTrace.step classifier (.read (newRows 0 1 bigTrace) { now := 10 }) =
      some readTrace :=
    Flusher.step_read rfl (newRows_nodup 0 bigTrace 1) hrows
  refine ⟨s, run_append.mpr ⟨pickedTrace, pick_reaches, run_cons.mpr ⟨readTrace, hread, hs⟩⟩,
    ?_, ?_, hstaging, hcollected⟩
  · have hfirst : ∃ r ∈ newRows 0 1 bigTrace, r.record.status = "error" ∧ r.id = 1 := by
      decide +kernel
    obtain ⟨r, hr, hstatus, hid⟩ := hfirst
    exact ⟨r, hr, hstatus, (hids r.id).mpr (by omega)⟩
  · have hlast : ∃ r ∈ newRows 0 1 bigTrace, r.id = 151 := by decide +kernel
    obtain ⟨r, hr, hid⟩ := hlast
    refine ⟨r, hr, fun k hk hkr => ?_⟩
    have := (hids 151).mp ⟨k, hk, hkr.trans hid⟩
    omega

/-! ### A trace through a failed flush -/

instance (f s : Span) : Decidable (Replays f s) :=
  decidable_of_iff (f.key = s.key ∧ s.record.spanID ≠ "")
    ⟨fun h => ⟨h.1, h.2⟩, fun h => ⟨h.key, h.named⟩⟩

instance (t : String) (s : Flusher) (mv : Move) : Decidable (Alone t s mv) := by
  unfold Alone; split <;> infer_instance

instance (t : String) (s : Flusher) (mv : Move) : Decidable (Unbroken t s mv) := by
  unfold Unbroken
  split
  · split <;> infer_instance
  · infer_instance

/-- An error span and a plain one. -/
def smallTrace : List Span :=
  [⟨1, { projectID := 1, traceID := "t", spanID := "a", status := "error" }, 0, none, false, false⟩,
    ⟨2, { projectID := 1, traceID := "t", spanID := "b" }, 0, none, false, false⟩]

def stageSmall : List Move := [.other (.stage 0 (smallTrace.map Span.record))]

/-- A flush reads them and fails, and a later one stores both. -/
def retried : List Move :=
  [.other (.ready 10 200 ["t"]), .read smallTrace { now := 10 }, .other .fail,
    .other (.ready 20 200 ["t"]), .read smallTrace { now := 20 }, .other .commit, .other .commit]

theorem whole_trace_stored_retried :
    ∃ s₀ s, run (Flusher.step classifier) ⟨{}, {}⟩ stageSmall = some s₀ ∧
      run (Flusher.step classifier) s₀ retried = some s ∧ s.sys.spans.length = 2 ∧
      ((∀ r ∈ ofTrace "t" s₀.sys.staging, Stored s.sys (ofTrace "t" s₀.sys.staging) r) ∨
        ∀ r ∈ ofTrace "t" s₀.sys.staging, ∀ k ∈ s.sys.spans, k.id ≠ r.id) ∧
      ((∃ r ∈ ofTrace "t" s₀.sys.staging, Interesting classifier retried r) →
        ∀ r ∈ ofTrace "t" s₀.sys.staging, Stored s.sys (ofTrace "t" s₀.sys.staging) r) :=
  ⟨_, _, rfl, rfl, by decide, whole_trace_stored classifier {} "t" stageSmall retried _ _ rfl trivial
    (by decide) (by decide) rfl (by decide)⟩

end Spanbarn.Staging
