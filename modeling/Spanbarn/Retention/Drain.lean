import Mathlib.Data.List.Sort
import Spanbarn.Retention.Samples
import Spanbarn.Schemes.Run
import Spanbarn.Staging.Flush

/-! The retention drain against the writers of the spans table.

    Two writers fill the table: the inline insert, which stamps the time of the insert, and the staging
    flush, which gives ids at its commit and keeps the time each row was staged. The drain reads the
    oldest rows by time and deletes by id.

        read batch ──▶ sample part ──▶ delete ids ≤ largest of part, 1000 at a time ──▶ next part …
        (by ingestedAt)                      ▲
              ▲                              │
              └──── inserts, flushes and other deletes in between

    What the drain deletes is what it read only as long as no row outside the batch has an id below
    one of the batch. -/

namespace Spanbarn.Retention
open List Spanbarn.Schemes Spanbarn.Staging

/-! ### The table -/

/-- Spans of one read. -/
def defaultBatchSize : ℕ := 5000

/-- Spans one cycle deletes before it leaves the backlog to the next. -/
def maxSpansPerCycle : ℕ := 50000

/-- Rows of one write job of `DeleteSpansByMaxID`. -/
def spanDeleteChunk : ℕ := 1000

/-- A batch of the drain, and the cutoff it was read with. -/
structure Batch where
  cutoff : ℤ
  spans : List Span
  deriving DecidableEq, Repr

/-- A row the drain deleted, and the batch it was working on. -/
structure Deletion where
  row : Span
  batch : Batch
  deriving DecidableEq, Repr

/-- A batch being worked on: the parts left, and the spans deleted in this cycle. -/
structure Drain where
  cfg : Config
  batch : Batch
  parts : List (List Span)
  spansDeleted : ℕ
  deriving DecidableEq, Repr

/-- Where `drainOldSpans` stands. -/
inductive Phase where
  | idle
  | reading (cfg : Config) (cutoff : ℤ) (spansDeleted : ℕ)
  | sampling (d : Drain)
  | deleting (d : Drain) (maxID : ℕ)
  deriving DecidableEq, Repr

/-- The staging side, the spans table, the slow sampler, `error_samples` as inserted, the drain, and the
    history of what it deleted. -/
structure System where
  staging : Staging.System := {}
  spans : List Span := []
  nextID : ℕ := 1
  slow : SlowSampler := {}
  errorSamples : List Span := []
  phase : Phase := .idle
  deleted : List Deletion := []

/-- Rows as the table stores them: `id` counts up and is never reused. -/
def numbered : ℕ → List Span → List Span
  | _, [] => []
  | n, r :: rest => { r with id := n } :: numbered (n + 1) rest

def System.insert (s : System) (rows : List Span) : System :=
  { s with
    spans := s.spans ++ numbered s.nextID rows
    nextID := s.nextID + rows.length }

/-- An answer of `GetSpansForAggregation`: at most `limit` rows up to the cutoff, oldest first, and none
    left out that is older. -/
def GetSpansForAggregation (spans : List Span) (cutoff : ℤ) (limit : ℕ) (batch : List Span) : Prop :=
  batch.Nodup ∧ batch.length ≤ limit ∧ (∀ r ∈ batch, r ∈ spans ∧ r.ingestedAt ≤ cutoff) ∧
    batch.Pairwise (fun a b => a.ingestedAt ≤ b.ingestedAt) ∧
    ∀ r ∈ spans, r.ingestedAt ≤ cutoff → r ∉ batch →
      batch.length = limit ∧ ∀ b ∈ batch, b.ingestedAt ≤ r.ingestedAt

instance (spans : List Span) (cutoff : ℤ) (limit : ℕ) (batch : List Span) :
    Decidable (GetSpansForAggregation spans cutoff limit batch) := by
  unfold GetSpansForAggregation; infer_instance

/-- The rows one job of `DeleteSpansByMaxID` deletes. -/
def oldestUpTo (spans : List Span) (maxID : ℕ) : List Span :=
  ((spans.filter fun r => decide (r.id ≤ maxID)).insertionSort fun a b => a.id ≤ b.id).take
    spanDeleteChunk

/-- `InsertErrorSamples` of the part's samples, and what `samplesOf` left in the sampler. -/
def System.sample (s : System) (d : Drain) (part : List Span) : System :=
  let out := samplesOf d.cfg s.slow part
  { s with slow := out.slow, errorSamples := s.errorSamples ++ out.samples }

/-- One job of `DeleteSpansByMaxID`; fewer rows than a chunk end the part. -/
def System.deleteChunk (s : System) (d : Drain) (maxID : ℕ) : System :=
  let doomed := oldestUpTo s.spans maxID
  let d' := { d with spansDeleted := d.spansDeleted + doomed.length }
  { s with
    spans := s.spans.filter fun r => decide (r ∉ doomed)
    deleted := s.deleted ++ doomed.map fun r => ⟨r, d.batch⟩
    phase := if doomed.length < spanDeleteChunk then .sampling d' else .deleting d' maxID }

/-- After the last part: a short batch or the cap ends the drain. -/
def Drain.after (d : Drain) : Phase :=
  if d.batch.spans.length < defaultBatchSize then .idle
  else if maxSpansPerCycle ≤ d.spansDeleted then .idle
  else .reading d.cfg d.batch.cutoff d.spansDeleted

/-- What may happen next. -/
inductive Action where
  | inline (now : ℤ) (rows : List Span)
  | staging (a : Staging.Action)
  | purge (ids : List ℕ)
  | start (cfg : Config) (cutoff : ℤ)
  | read (batch : List Span)
  | sample
  | sampleFails
  | deleteChunk
  | next
  | fail
  deriving DecidableEq, Repr

def step (s : System) : Action → Option System
  | .inline now rows => some (s.insert (rows.map (Span.stamped now)))
  -- what a flush commit appends to the spans table gets its ids here
  | .staging a => (Staging.step s.staging a).map fun t =>
    { s.insert (t.spans.drop s.staging.spans.length) with staging := t }
  -- the other deletes of the table: expired boring spans, project caps, reclaim
  | .purge ids => some { s with spans := s.spans.filter fun r => decide (r.id ∉ ids) }
  | .start cfg cutoff =>
    match s.phase with
    | .idle => some { s with phase := .reading cfg cutoff 0 }
    | _ => none
  | .read batch =>
    match s.phase with
    | .reading cfg cutoff n =>
      if GetSpansForAggregation s.spans cutoff defaultBatchSize batch then
        some { s with phase :=
          if batch.isEmpty then .idle
          else .sampling ⟨cfg, ⟨cutoff, batch⟩, spanParts batch retentionPart, n⟩ }
      else none
    | _ => none
  | .sample =>
    match s.phase with
    | .sampling ⟨cfg, batch, part :: rest, n⟩ =>
      some { s.sample ⟨cfg, batch, rest, n⟩ part with
        phase := .deleting ⟨cfg, batch, rest, n⟩ (maxID part) }
    | _ => none
  -- the sampler has counted the part by the time the insert fails
  | .sampleFails =>
    match s.phase with
    | .sampling ⟨cfg, _, part :: _, _⟩ =>
      some { s with slow := (samplesOf cfg s.slow part).slow, phase := .idle }
    | _ => none
  | .deleteChunk =>
    match s.phase with
    | .deleting d maxID => some (s.deleteChunk d maxID)
    | _ => none
  | .next =>
    match s.phase with
    | .sampling ⟨cfg, batch, [], n⟩ => some { s with phase := Drain.after ⟨cfg, batch, [], n⟩ }
    | _ => none
  -- a query, a job or the context that fails ends the drain
  | .fail => if s.phase = .idle then none else some { s with phase := .idle }

/-- All a step can do. -/
inductive Step (s : System) : Action → System → Prop
  | insert {a rows t} : Step s a { s.insert rows with staging := t }
  | purge {ids} : Step s (.purge ids) { s with spans := s.spans.filter fun r => decide (r.id ∉ ids) }
  | calm {a phase slow} (h : ∀ d m, phase ≠ .sampling d ∧ phase ≠ .deleting d m) :
      Step s a { s with phase := phase, slow := slow }
  | read {cfg cutoff n batch} (h : GetSpansForAggregation s.spans cutoff defaultBatchSize batch) :
      Step s (.read batch)
        { s with phase := .sampling ⟨cfg, ⟨cutoff, batch⟩, spanParts batch retentionPart, n⟩ }
  | sample {cfg batch part rest n} (h : s.phase = .sampling ⟨cfg, batch, part :: rest, n⟩) :
      Step s .sample { s.sample ⟨cfg, batch, rest, n⟩ part with
        phase := .deleting ⟨cfg, batch, rest, n⟩ (maxID part) }
  | deleteChunk {d m} (h : s.phase = .deleting d m) : Step s .deleteChunk (s.deleteChunk d m)

variable {s : System}

theorem Step.of_step {s' : System} {a : Action} (h : step s a = some s') : Step s a s' := by
  cases a with
  | inline now rows => cases h; exact .insert
  | staging a =>
    obtain ⟨t, -, rfl⟩ := Option.map_eq_some_iff.mp h
    exact .insert
  | purge ids => cases h; exact .purge
  | start cfg cutoff | sampleFails =>
    simp only [step] at h
    split at h
    · cases h; exact .calm fun _ _ => ⟨nofun, nofun⟩
    · cases h
  | read batch =>
    simp only [step] at h
    split at h
    · split at h
      · next hb =>
        cases h
        split
        · exact .calm fun _ _ => ⟨nofun, nofun⟩
        · exact .read hb
      · cases h
    · cases h
  | sample =>
    simp only [step] at h
    split at h
    · next hp => cases h; exact .sample hp
    · cases h
  | deleteChunk =>
    simp only [step] at h
    split at h
    · next hp => cases h; exact .deleteChunk hp
    · cases h
  | next =>
    simp only [step] at h
    split at h
    · cases h
      refine .calm fun d m => ?_
      unfold Drain.after
      split
      · simp
      · split <;> simp
    · cases h
  | fail =>
    simp only [step] at h
    split at h
    · cases h
    · cases h; exact .calm fun _ _ => ⟨nofun, nofun⟩

/-! ### Ids only grow -/

theorem mem_numbered : ∀ {rows : List Span} {n : ℕ} {r : Span}, r ∈ numbered n rows →
    n ≤ r.id ∧ r.id < n + rows.length
  | x :: rest, n, r, h => by
    rcases mem_cons.mp h with rfl | h
    · exact ⟨le_rfl, by simp⟩
    · obtain ⟨h1, h2⟩ := mem_numbered h
      rw [length_cons]
      omega

theorem numbered_nodup : ∀ (rows : List Span) (n : ℕ), ((numbered n rows).map Span.id).Nodup
  | [], _ => nodup_nil
  | x :: rest, n => by
    refine nodup_cons.mpr ⟨fun h => ?_, numbered_nodup rest (n + 1)⟩
    obtain ⟨r, hr, hid⟩ := mem_map.mp h
    have hlt : n + 1 ≤ r.id := (mem_numbered hr).1
    have heq : r.id = n := hid
    omega

/-- Every id of the table has been given out, once. -/
structure Numbered (s : System) : Prop where
  nodup : (s.spans.map Span.id).Nodup
  bound : ∀ r ∈ s.spans, r.id < s.nextID

theorem Numbered.insert (h : Numbered s) (rows : List Span) (t : Staging.System) :
    Numbered { s.insert rows with staging := t } := by
  refine ⟨?_, fun r hr => ?_⟩
  · change ((s.spans ++ numbered s.nextID rows).map Span.id).Nodup
    rw [map_append, nodup_append]
    refine ⟨h.nodup, numbered_nodup rows s.nextID, ?_⟩
    rintro i hi j hj rfl
    obtain ⟨r, hr, rfl⟩ := mem_map.mp hi
    obtain ⟨q, hq, hqr⟩ := mem_map.mp hj
    have := h.bound r hr
    have := (mem_numbered hq).1
    omega
  · change r.id < s.nextID + rows.length
    rcases mem_append.mp hr with hr | hr
    · exact Nat.lt_add_right _ (h.bound r hr)
    · exact (mem_numbered hr).2

variable {t : System}

theorem Numbered.filter (h : Numbered s) {p : Span → Bool} (hspans : t.spans = s.spans.filter p)
    (hnext : t.nextID = s.nextID) : Numbered t := by
  refine ⟨?_, fun r hr => ?_⟩
  · rw [hspans]
    exact h.nodup.sublist (filter_sublist.map _)
  · rw [hspans] at hr
    exact hnext ▸ h.bound r (mem_filter.mp hr).1

/-! ### What a drain knows of its batch -/

/-- Every row left out of the batch has a larger id than every row of it. -/
def FromTheFront (s : System) : Action → Prop
  | .read batch => ∀ r ∈ s.spans, r ∉ batch → ∀ b ∈ batch, b.id < r.id
  | _ => True

instance (s : System) (a : Action) : Decidable (FromTheFront s a) := by
  unfold FromTheFront; split <;> infer_instance

/-- A batch with its parts before and after: the rows up to any of its ids are its own, and the evidence
    in the parts that are done has been copied. -/
structure Draining (s : System) (batch : Batch) (done rest : List Span) : Prop where
  old : ∀ r ∈ batch.spans, r.ingestedAt ≤ batch.cutoff
  given : ∀ r ∈ batch.spans, r.id < s.nextID
  front : ∀ r ∈ s.spans, ∀ b ∈ batch.spans, r.id ≤ b.id → r ∈ batch.spans
  perm : (done ++ rest).Perm batch.spans
  ordered : (done ++ rest).Pairwise fun a b => a.id < b.id
  copied : ∀ r ∈ done, isEvidence r = true → r ∈ s.errorSamples

/-- What another step may change under a drain: rows go, new ones have new ids, samples stay. -/
theorem Draining.mono {batch : Batch} {done rest : List Span} (h : Draining s batch done rest)
    (hspans : ∀ r ∈ t.spans, r ∈ s.spans ∨ s.nextID ≤ r.id) (hnext : s.nextID ≤ t.nextID)
    (hsamples : ∀ r ∈ s.errorSamples, r ∈ t.errorSamples) :
    Draining t batch done rest := by
  refine ⟨h.old, fun r hr => (h.given r hr).trans_le hnext, fun r hr b hb hid => ?_, h.perm,
    h.ordered, fun r hr he => hsamples r (h.copied r hr he)⟩
  rcases hspans r hr with hr | hnew
  · exact h.front r hr b hb hid
  · have := h.given b hb
    omega

/-- A row up to an id of the parts that are done is in one of them. -/
theorem Draining.mem_done {batch : Batch} {done rest : List Span} (h : Draining s batch done rest)
    {r b : Span} (hr : r ∈ s.spans) (hb : b ∈ done) (hid : r.id ≤ b.id) : r ∈ done := by
  have hbatch : r ∈ batch.spans :=
    h.front r hr b (h.perm.subset (mem_append_left _ hb)) hid
  rcases mem_append.mp (h.perm.symm.subset hbatch) with hd | hrest
  · exact hd
  · have := (pairwise_append.mp h.ordered).2.2 b hb r hrest
    omega

/-- What holds of the batch in each phase. -/
def Phase.Knows (s : System) : Phase → Prop
  | .idle => True
  | .reading .. => True
  | .sampling d => ([] ∉ d.parts) ∧ ∃ done, Draining s d.batch done d.parts.flatten
  | .deleting d m => ([] ∉ d.parts) ∧ ∃ done, Draining s d.batch done d.parts.flatten ∧
      ∃ b ∈ done, b.id = m

/-- A deleted row was in the batch, up to its cutoff, and evidence had been copied. -/
structure Examined (s : System) (d : Deletion) : Prop where
  read : d.row ∈ d.batch.spans
  old : d.row.ingestedAt ≤ d.batch.cutoff
  copied : isEvidence d.row = true → d.row ∈ s.errorSamples

structure Inv (s : System) : Prop where
  rows : Numbered s
  knows : s.phase.Knows s
  examined : ∀ d ∈ s.deleted, Examined s d

theorem inv_init : Inv {} :=
  ⟨⟨nodup_nil, forall_mem_nil _⟩, trivial, forall_mem_nil _⟩

theorem Phase.Knows.mono {p : Phase} (h : p.Knows s)
    (hspans : ∀ r ∈ t.spans, r ∈ s.spans ∨ s.nextID ≤ r.id) (hnext : s.nextID ≤ t.nextID)
    (hsamples : ∀ r ∈ s.errorSamples, r ∈ t.errorSamples) :
    p.Knows t := by
  cases p with
  | idle => trivial
  | reading _ _ _ => trivial
  | sampling d =>
    obtain ⟨hne, done, hd⟩ := h
    exact ⟨hne, done, hd.mono hspans hnext hsamples⟩
  | deleting d m =>
    obtain ⟨hne, done, hd, hb⟩ := h
    exact ⟨hne, done, hd.mono hspans hnext hsamples, hb⟩

theorem Inv.insert (h : Inv s) (rows : List Span) (t : Staging.System) :
    Inv { s.insert rows with staging := t } := by
  refine ⟨h.rows.insert rows t, h.knows.mono (fun r hr => ?_) (Nat.le_add_right _ _) fun _ hr => hr,
    fun d hd => ⟨(h.examined d hd).read, (h.examined d hd).old, (h.examined d hd).copied⟩⟩
  rcases mem_append.mp hr with hr | hr
  · exact .inl hr
  · exact .inr (mem_numbered hr).1

theorem Inv.purge (h : Inv s) (ids : List ℕ) :
    Inv { s with spans := s.spans.filter fun r => decide (r.id ∉ ids) } :=
  ⟨h.rows.filter rfl rfl,
    h.knows.mono (fun _ hr => .inl (mem_filter.mp hr).1) le_rfl fun _ hr => hr,
    fun d hd => ⟨(h.examined d hd).read, (h.examined d hd).old, (h.examined d hd).copied⟩⟩

theorem Inv.calm (h : Inv s) {phase : Phase} (slow : SlowSampler)
    (hp : ∀ d m, phase ≠ .sampling d ∧ phase ≠ .deleting d m) :
    Inv { s with phase := phase, slow := slow } := by
  refine ⟨⟨h.rows.nodup, h.rows.bound⟩, ?_,
    fun d hd => ⟨(h.examined d hd).read, (h.examined d hd).old, (h.examined d hd).copied⟩⟩
  cases phase with
  | idle => trivial
  | reading _ _ _ => trivial
  | sampling d => exact absurd rfl (hp d 0).1
  | deleting d m => exact absurd rfl (hp d m).2

/-! ### Reading a batch -/

variable {batch : List Span} {size : ℕ}

/-- Parts are never empty. -/
theorem nil_not_mem_spanParts (h : 0 < size) : [] ∉ spanParts batch size :=
  nil_not_mem_chunks h _

theorem spanParts_perm (h : 0 < size) : (spanParts batch size).flatten.Perm batch := by
  rw [spanParts, flatten_chunks h]
  exact perm_insertionSort _ _

/-- With distinct ids the parts are in strict id order. -/
theorem spanParts_ordered (h : 0 < size) (hnd : (batch.map Span.id).Nodup) :
    (spanParts batch size).flatten.Pairwise fun a b => a.id < b.id := by
  rw [spanParts, flatten_chunks h]
  have hsorted := pairwise_insertionSort (fun a b : Span => a.id ≤ b.id) batch
  have hperm := perm_insertionSort (fun a b : Span => a.id ≤ b.id) batch
  have hdistinct : (batch.insertionSort fun a b => a.id ≤ b.id).Pairwise fun a b => a.id ≠ b.id :=
    pairwise_map.mp ((hperm.map Span.id).nodup_iff.mpr hnd)
  exact (hsorted.and hdistinct).imp fun h => lt_of_le_of_ne h.1 h.2

theorem Inv.read (h : Inv s) {cfg : Config} {cutoff : ℤ} {n : ℕ}
    (hb : GetSpansForAggregation s.spans cutoff defaultBatchSize batch)
    (hfront : FromTheFront s (.read batch)) :
    Inv { s with phase := .sampling ⟨cfg, ⟨cutoff, batch⟩, spanParts batch retentionPart, n⟩ } := by
  obtain ⟨hnd, -, hmem, -, -⟩ := hb
  have hpart : 0 < retentionPart := by decide
  have hids : (batch.map Span.id).Nodup := by
    refine hnd.map_on fun a ha b hb hab => ?_
    exact inj_on_of_nodup_map h.rows.nodup (hmem a ha).1 (hmem b hb).1 hab
  refine ⟨⟨h.rows.nodup, h.rows.bound⟩, ⟨nil_not_mem_spanParts hpart, [], ?_⟩,
    fun d hd => ⟨(h.examined d hd).read, (h.examined d hd).old, (h.examined d hd).copied⟩⟩
  refine ⟨fun r hr => (hmem r hr).2, fun r hr => h.rows.bound r (hmem r hr).1,
    fun r hr b hb hid => ?_, spanParts_perm hpart, spanParts_ordered hpart hids,
    forall_mem_nil _⟩
  by_contra hout
  have := hfront r hr hout b hb
  omega

/-! ### Sampling and deleting a part -/

theorem Inv.sample (h : Inv s) {cfg : Config} {batch : Batch} {part : List Span}
    {rest : List (List Span)} {n : ℕ} (hp : s.phase = .sampling ⟨cfg, batch, part :: rest, n⟩) :
    Inv { s.sample ⟨cfg, batch, rest, n⟩ part with
      phase := .deleting ⟨cfg, batch, rest, n⟩ (maxID part) } := by
  have hk := h.knows
  rw [hp] at hk
  obtain ⟨hne, done, hd⟩ := hk
  rw [mem_cons, not_or] at hne
  obtain ⟨b, hb, hm⟩ := maxID_mem (Ne.symm hne.1)
  have hsplit : done ++ (part :: rest).flatten = (done ++ part) ++ rest.flatten := by
    rw [flatten_cons, append_assoc]
  have hstay : ∀ r ∈ s.errorSamples, r ∈ s.errorSamples ++ (samplesOf cfg s.slow part).samples :=
    fun r hr => mem_append_left _ hr
  refine ⟨⟨h.rows.nodup, h.rows.bound⟩, ⟨hne.2, done ++ part, ?_, b, ?_, hm.symm⟩,
    fun d hd => ⟨(h.examined d hd).read, (h.examined d hd).old, fun he =>
      hstay _ ((h.examined d hd).copied he)⟩⟩
  · refine ⟨hd.old, hd.given, hd.front, hsplit ▸ hd.perm, hsplit ▸ hd.ordered, fun r hr he => ?_⟩
    rcases mem_append.mp hr with hr | hr
    · exact hstay r (hd.copied r hr he)
    · exact mem_append_right _ (evidence_sampled hr he)
  · exact mem_append_right _ hb

theorem mem_oldestUpTo {spans : List Span} {m : ℕ} {r : Span} (h : r ∈ oldestUpTo spans m) :
    r ∈ spans ∧ r.id ≤ m := by
  have hsort := mem_of_mem_take h
  rw [mem_insertionSort, mem_filter, decide_eq_true_eq] at hsort
  exact hsort

/-- A job leaves the drain in the part or at its end. -/
theorem System.deleteChunk_phase (s : System) (d : Drain) (m : ℕ) : ∃ n,
    (s.deleteChunk d m).phase = .sampling { d with spansDeleted := n } ∨
      (s.deleteChunk d m).phase = .deleting { d with spansDeleted := n } m := by
  refine ⟨d.spansDeleted + (oldestUpTo s.spans m).length, ?_⟩
  by_cases hlen : (oldestUpTo s.spans m).length < spanDeleteChunk
  · exact .inl (if_pos hlen)
  · exact .inr (if_neg hlen)

theorem Inv.deleteChunk (h : Inv s) {d : Drain} {m : ℕ} (hp : s.phase = .deleting d m) :
    Inv (s.deleteChunk d m) := by
  have hk := h.knows
  rw [hp] at hk
  obtain ⟨hne, done, hd, b, hb, rfl⟩ := hk
  have hd' : Draining (s.deleteChunk d b.id) d.batch done d.parts.flatten :=
    hd.mono (fun r hr => .inl (mem_filter.mp hr).1) le_rfl fun _ hr => hr
  refine ⟨h.rows.filter rfl rfl, ?_, fun x hx => ?_⟩
  · obtain ⟨n, hn | hn⟩ := s.deleteChunk_phase d b.id
    · rw [hn]
      exact ⟨hne, done, hd'⟩
    · rw [hn]
      exact ⟨hne, done, hd', b, hb, rfl⟩
  · rcases mem_append.mp hx with hx | hx
    · exact ⟨(h.examined x hx).read, (h.examined x hx).old, (h.examined x hx).copied⟩
    -- the job takes rows up to the largest id of the parts that are done
    · obtain ⟨r, hr, rfl⟩ := mem_map.mp hx
      obtain ⟨hrs, hid⟩ := mem_oldestUpTo hr
      have hdone : r ∈ done := hd.mem_done hrs hb hid
      have hbatch : r ∈ d.batch.spans := hd.perm.subset (mem_append_left _ hdone)
      exact ⟨hbatch, hd.old r hbatch, hd.copied r hdone⟩

theorem inv_step (s : System) (a : Action) (s' : System) (h : Inv s) (hc : FromTheFront s a)
    (hs : step s a = some s') : Inv s' := by
  cases Step.of_step hs with
  | insert => exact h.insert _ _
  | purge => exact h.purge _
  | calm hp => exact h.calm _ hp
  | read hb => exact h.read hb hc
  | sample hp => exact h.sample hp
  | deleteChunk hp => exact h.deleteChunk hp

/-- CORRECT: as long as every batch is read from the front of the table (no row left out of it has an id
    below one of its rows), every row the drain deletes was in the batch it read, at or before its
    cutoff, and every error or durable one had been inserted into `error_samples`. -/
theorem drain_deletes_examined (as : List Action) (s : System) (hc : Meets step FromTheFront {} as)
    (h : run step {} as = some s) :
    ∀ d ∈ s.deleted, d.row ∈ d.batch.spans ∧ d.row.ingestedAt ≤ d.batch.cutoff ∧
      (isEvidence d.row = true → d.row ∈ s.errorSamples) := by
  intro d hd
  have hinv : Inv s := inv_run_meets inv_step inv_init hc h
  exact ⟨(hinv.examined d hd).read, (hinv.examined d hd).old, (hinv.examined d hd).copied⟩

/-! ### A row that came late to its trace -/

def opening : Model.SpanRecord := { projectID := 1, traceID := "t", spanID := "a" }

def failing : Model.SpanRecord := { projectID := 1, traceID := "t", spanID := "b", status := "error" }

def other : Model.SpanRecord := { projectID := 1, traceID := "u", spanID := "c" }

/-- A row of the whole second. -/
def rowOf (id : ℕ) (record : Model.SpanRecord) (seconds : ℤ) : Span :=
  { id, record, ingestedAt := seconds * Model.secondNanos }

/-- Trace `t` is staged at 0s and, with an error, at 29s; `u` at 1s. One flush stores both, `t` first, so
    the error span gets id 2 and the span of `u` id 3. -/
def flushed : List Action :=
  [.staging (.stage 0 [opening]), .staging (.stage Model.secondNanos [other]),
    .staging (.stage (29 * Model.secondNanos) [failing]),
    .staging (.ready (30 * Model.secondNanos) 200 ["t", "u"]),
    .staging (.read [rowOf 1 opening 0, rowOf 3 failing 29, rowOf 2 other 1]
      [rowOf 1 opening 0, rowOf 3 failing 29, rowOf 2 other 1]),
    .staging .commit, .staging .commit]

/-- The drain with the cutoff 10s reads ids 1 and 3 and deletes up to 3. -/
def drainedAtTen : List Action :=
  flushed ++ [.start {} (10 * Model.secondNanos), .read [rowOf 1 opening 0, rowOf 3 other 1], .sample,
    .deleteChunk, .next]

/-- The error span is deleted though it is younger than the cutoff and was never read or copied. -/
theorem late_error_span_drained :
    ∃ s, run step {} drainedAtTen = some s ∧ ∃ d ∈ s.deleted, d.row ∉ d.batch.spans ∧
      d.batch.cutoff < d.row.ingestedAt ∧ d.row.record.status = "error" ∧ s.errorSamples = [] ∧
      s.phase = .idle :=
  ⟨_, rfl, by decide⟩

/-- With the cutoff 29s the batch is the whole table. -/
def drainedAtTwentyNine : List Action :=
  flushed ++ [.start {} (29 * Model.secondNanos),
    .inline (31 * Model.secondNanos) [{ rowOf 0 other 0 with durable := true }],
    .read [rowOf 1 opening 0, rowOf 3 other 1, rowOf 2 failing 29], .sample, .deleteChunk, .next]

theorem drain_deletes_examined_at_twentyNine :
    ∃ s, run step {} drainedAtTwentyNine = some s ∧ s.deleted.length = 3 ∧ s.spans.length = 1 ∧
      ∀ d ∈ s.deleted, d.row ∈ d.batch.spans ∧ d.row.ingestedAt ≤ d.batch.cutoff ∧
        (isEvidence d.row = true → d.row ∈ s.errorSamples) :=
  ⟨_, rfl, by decide, by decide, drain_deletes_examined drainedAtTwentyNine _ (by decide) rfl⟩

end Spanbarn.Retention
