import Mathlib.Data.List.Forall2
import Spanbarn.Sampling.MinuteFloor
import Spanbarn.Schemes.Pieces
import Spanbarn.Staging.Chunks

/-! Which spans of a flush are stored.

    A trace with an error span, a slow span or a span of a project in verbose mode is stored as it is.
    Of the others, each is stored or dropped as a whole: the hourly tier keeps the first clean traces of
    an operation for good, and what is left goes by the ratio die and the minute floor.

        spans ─ interesting ids ─┬─▶ result (verbose clean traces marked durable)
                                 └─▶ boring traces, in first-seen order
                                       hourly tier? ──▶ stored, durable
                                       die or floor? ─▶ stored, with an expiry
                                       otherwise ─────▶ dropped                              -/

namespace Spanbarn.Staging
open List Spanbarn.Model Spanbarn.Sampling Spanbarn.Schemes

/-! ### The policy and the floors -/

/-- `BoringPolicyReader`; `verboseUntil` is `none` for the zero time. -/
structure BoringPolicy where
  sampleRatio : ℤ → ℤ
  verboseUntil : ℤ → Option ℤ
  minTracesPerMinute : ℤ → ℤ
  minTracesPerHour : ℤ → ℤ

/-- The settings of the classification. -/
structure Classifier where
  slowThresholdUs : ℤ
  boringRetention : ℤ := 0
  deriving DecidableEq, Repr

/-- The minute floor and the hourly one, where they are wired in. -/
structure Floors where
  minute : Option MinuteFloor := none
  hourly : Option MinuteFloor := none

/-- What one classification takes from outside: the clock, the policy as it is then, and for each trace
    whether the die of its ratio keeps it. -/
structure Moment where
  now : ℤ
  policy : Option BoringPolicy := none
  die : String → Bool := fun _ => false

/-- `verboseProjects`: the project is in verbose mode. -/
def Moment.verbose (m : Moment) (projectID : ℤ) : Bool :=
  (m.policy.bind fun p => p.verboseUntil projectID).any fun till => decide (m.now < till)

/-- An error span or a slow one. -/
def Classifier.dirty (c : Classifier) (s : Span) : Bool :=
  s.record.status == "error" || decide (c.slowThresholdUs < s.record.durationUs)

def Classifier.interesting (c : Classifier) (m : Moment) (s : Span) : Bool :=
  m.verbose s.record.projectID || c.dirty s

def interestingTraceIDs (c : Classifier) (m : Moment) (spans : List Span) : List String :=
  (spans.filter (c.interesting m)).map Span.traceID

/-! ### Traces -/

/-- `boringTrace`: the spans of one trace and the project of the first. -/
structure BoringTrace where
  projectID : ℤ
  spans : List Span
  deriving DecidableEq, Repr

def joinTrace : Option BoringTrace → Span → BoringTrace
  | none, s => ⟨s.record.projectID, [s]⟩
  | some bt, s => { bt with spans := bt.spans ++ [s] }

/-- Spans by trace, the traces in first-seen order. -/
def groups (spans : List Span) : List (String × BoringTrace) := gather Span.traceID joinTrace spans

/-- The span without a parent, or else the first. -/
def traceRoot (spans : List Span) : Option Span :=
  (spans.find? fun s => s.record.parentSpanID == "").or spans.head?

/-! ### The hourly tier -/

/-- `hourlyTier.admit`: the hourly floor takes the trace; off without a policy or a floor. -/
def admitHourly (m : Moment) (hourly : Option MinuteFloor) (bt : BoringTrace) :
    Bool × Option MinuteFloor :=
  match m.policy, hourly, traceRoot bt.spans with
  | some policy, some floor, some root =>
    let out := floor.shouldKeep bt.projectID root.record.name
      (floor.bucketOf root.record.startTimeUs) (policy.minTracesPerHour bt.projectID) false
    (out.1, some out.2)
  | _, _, _ => (false, hourly)

/-- The traces `markVerboseClean` marks: stored for their verbose project only, and admitted. -/
def verboseClean (c : Classifier) (m : Moment) :
    Option MinuteFloor → List (String × BoringTrace) → List String × Option MinuteFloor
  | hourly, [] => ([], hourly)
  | hourly, (id, g) :: rest =>
    if g.spans.any c.dirty || !m.verbose g.projectID then verboseClean c m hourly rest
    else
      let a := admitHourly m hourly g
      let out := verboseClean c m a.2 rest
      (if a.1 then id :: out.1 else out.1, out.2)

def Span.madeDurable (s : Span) : Span := { s with durable := true }

def markDurable (ids : List String) (spans : List Span) : List Span :=
  spans.map fun s => if s.traceID ∈ ids then s.madeDurable else s

/-! ### The ratio and the minute floor -/

/-- Ratio 1 keeps all, a larger one goes by the die, and 0 drops. -/
def ratioVerdict (policy : BoringPolicy) (m : Moment) (id : String) (projectID : ℤ) : Bool :=
  if policy.sampleRatio projectID = 1 then true
  else if 1 < policy.sampleRatio projectID then m.die id
  else false

/-- `boringSampler.keep`. -/
def samplerKeep (policy : BoringPolicy) (m : Moment) (floor : Option MinuteFloor) (id : String)
    (bt : BoringTrace) : Bool × Option MinuteFloor :=
  let ratioKeep := ratioVerdict policy m id bt.projectID
  match floor, traceRoot bt.spans with
  | some floor, some root =>
    let out := floor.shouldKeep bt.projectID root.record.name
      (root.record.startTimeUs.tdiv 60000000) (policy.minTracesPerMinute bt.projectID) ratioKeep
    (out.1, some out.2)
  | _, _ => (ratioKeep, floor)

/-- A sampled trace expires; without a retention it does not. -/
def stampBoringExpiry (c : Classifier) (s : Span) : Span :=
  if c.boringRetention ≤ 0 then s else { s with expiresAt := some (s.ingestedAt + c.boringRetention) }

/-! ### Classification -/

structure Classified where
  kept : List Span
  floors : Floors

/-- The loop over the boring traces. -/
def keepBoring (c : Classifier) (m : Moment) (policy : BoringPolicy) :
    Floors → List (String × BoringTrace) → Classified
  | floors, [] => ⟨[], floors⟩
  | floors, (id, bt) :: rest =>
    let a := admitHourly m floors.hourly bt
    let floors := { floors with hourly := a.2 }
    if a.1 then
      let out := keepBoring c m policy floors rest
      { out with kept := bt.spans.map Span.madeDurable ++ out.kept }
    else
      let k := samplerKeep policy m floors.minute id bt
      let out := keepBoring c m policy { floors with minute := k.2 } rest
      if k.1 then { out with kept := bt.spans.map (stampBoringExpiry c) ++ out.kept } else out

def classifySpansForStorage (c : Classifier) (m : Moment) (floors : Floors) (spans : List Span) :
    Classified :=
  if c.slowThresholdUs ≤ 0 then ⟨spans, floors⟩
  else
    let ids := interestingTraceIDs c m spans
    let result := spans.filter fun s => decide (s.traceID ∈ ids)
    let marked := verboseClean c m floors.hourly (groups result)
    let floors := { floors with hourly := marked.2 }
    match m.policy with
    | none => ⟨markDurable marked.1 result, floors⟩
    | some policy =>
      let out := keepBoring c m policy floors
        (groups (spans.filter fun s => decide (s.traceID ∉ ids)))
      { out with kept := markDurable marked.1 result ++ out.kept }

/-! ### Traces stay whole -/

/-- The stored copy of a span: unchanged but for its expiry and its durable flag. -/
def Retouched (s k : Span) : Prop := k = { s with expiresAt := k.expiresAt, durable := k.durable }

theorem Retouched.refl (s : Span) : Retouched s s := rfl

theorem retouched_durable (s : Span) : Retouched s s.madeDurable := rfl

theorem retouched_expiry (c : Classifier) (s : Span) : Retouched s (stampBoringExpiry c s) := by
  unfold stampBoringExpiry
  split
  · exact .refl s
  · rfl

variable {s : Span}

theorem Retouched.id_eq {k : Span} (h : Retouched s k) : k.id = s.id := by rw [h]

theorem retouched_map {f : Span → Span} (h : ∀ s, Retouched s (f s)) (l : List Span) :
    List.Forall₂ Retouched l (l.map f) :=
  forall₂_map_right_iff.mpr (forall₂_same.mpr fun s _ => h s)

variable {bare kept spans : List Span}

theorem exists_of_forall₂_left (h : List.Forall₂ Retouched bare kept) (hs : s ∈ bare) :
    ∃ k ∈ kept, Retouched s k := by
  induction h with
  | nil => exact absurd hs not_mem_nil
  | cons hab _ ih =>
    rcases mem_cons.mp hs with rfl | hs
    · exact ⟨_, mem_cons_self, hab⟩
    · obtain ⟨k, hk, hret⟩ := ih hs
      exact ⟨k, mem_cons_of_mem _ hk, hret⟩

theorem exists_of_forall₂_right (h : List.Forall₂ Retouched bare kept) {k : Span} (hk : k ∈ kept) :
    ∃ s ∈ bare, Retouched s k := by
  induction h with
  | nil => exact absurd hk not_mem_nil
  | cons hab _ ih =>
    rcases mem_cons.mp hk with rfl | hk
    · exact ⟨_, mem_cons_self, hab⟩
    · obtain ⟨s, hs, hret⟩ := ih hk
      exact ⟨s, mem_cons_of_mem _ hs, hret⟩

theorem map_id_of_forall₂ (h : List.Forall₂ Retouched bare kept) :
    kept.map Span.id = bare.map Span.id := by
  induction h with
  | nil => rfl
  | cons hab _ ih => rw [map_cons, map_cons, ih, hab.id_eq]

/-- A group holds the spans of its trace. -/
theorem groups_spans {e : String × BoringTrace} (h : e ∈ groups spans) :
    e.2.spans = ofTrace e.1 spans := by
  have hfold : ∀ (l : List Span) (o : Option BoringTrace),
      ((l.foldl (fun o x => some (joinTrace o x)) o).map BoringTrace.spans).getD [] =
        (o.map BoringTrace.spans).getD [] ++ l := by
    intro l
    induction l with
    | nil => simp
    | cons s l ih =>
      intro o
      rw [foldl_cons, ih]
      cases o <;> simp [joinTrace]
  have hacc := (mem_iff_accAt (nodup_keys_gather spans)).mp h
  have := hfold (spans.filter fun x => decide (x.traceID = e.1)) none
  rw [← accAt_gather, hacc] at this
  exact this

/-- The boring traces that are kept are some of them, each whole. -/
theorem keepBoring_spec (c : Classifier) (m : Moment) (policy : BoringPolicy) (boring : List Span) :
    ∀ (gs : List (String × BoringTrace)) (floors : Floors),
      (∀ e ∈ gs, e.2.spans = ofTrace e.1 boring) →
      ∃ ids, List.Sublist ids (gs.map Prod.fst) ∧
        List.Forall₂ Retouched (ids.flatMap fun id => ofTrace id boring)
          (keepBoring c m policy floors gs).kept
  | [], _, _ => ⟨[], .slnil, .nil⟩
  | (id, bt) :: rest, floors, h => by
    have hspans : bt.spans = ofTrace id boring := h (id, bt) mem_cons_self
    have hrest : ∀ floors, _ := fun floors =>
      keepBoring_spec c m policy boring rest floors fun e he => h e (mem_cons_of_mem _ he)
    rw [keepBoring]
    dsimp only
    split
    · obtain ⟨ids, hsub, hall⟩ := hrest { floors with hourly := (admitHourly m floors.hourly bt).2 }
      refine ⟨id :: ids, hsub.cons_cons id, ?_⟩
      rw [flatMap_cons, ← hspans]
      exact rel_append (retouched_map retouched_durable _) hall
    · split
      · obtain ⟨ids, hsub, hall⟩ := hrest _
        refine ⟨id :: ids, hsub.cons_cons id, ?_⟩
        rw [flatMap_cons, ← hspans]
        exact rel_append (retouched_map (retouched_expiry c) _) hall
      · obtain ⟨ids, hsub, hall⟩ := hrest _
        exact ⟨ids, hsub.cons id, hall⟩

/-- Some of the traces of `spans`, each with all its spans. -/
structure WholeTraces (spans bare : List Span) : Prop where
  nodup : (bare.map Span.id).Nodup
  sub : ∀ s ∈ bare, s ∈ spans
  whole : ∀ s ∈ spans, ∀ b ∈ bare, s.traceID = b.traceID → s ∈ bare

theorem WholeTraces.all (h : (spans.map Span.id).Nodup) : WholeTraces spans spans :=
  ⟨h, fun _ hs => hs, fun _ hs _ _ _ => hs⟩

theorem WholeTraces.filter (h : (spans.map Span.id).Nodup) (ids : List String) :
    WholeTraces spans (spans.filter fun s => decide (s.traceID ∈ ids)) := by
  refine ⟨h.sublist (filter_sublist.map _), fun s hs => (mem_filter.mp hs).1,
    fun s hs b hb hsb => mem_filter.mpr ⟨hs, ?_⟩⟩
  rw [hsb]
  exact (mem_filter.mp hb).2

variable {ids : List String}

theorem mem_flatMap_ofTrace :
    s ∈ ids.flatMap (fun id => ofTrace id spans) ↔ s ∈ spans ∧ s.traceID ∈ ids := by
  simp only [mem_flatMap, ofTrace, mem_filter, decide_eq_true_eq]
  constructor
  · rintro ⟨id, hid, hs, rfl⟩
    exact ⟨hs, hid⟩
  · rintro ⟨hs, hid⟩
    exact ⟨_, hid, hs, rfl⟩

theorem WholeTraces.flatMap (h : (spans.map Span.id).Nodup) (hids : ids.Nodup) :
    WholeTraces spans (ids.flatMap fun id => ofTrace id spans) := by
  refine ⟨?_, fun s hs => (mem_flatMap_ofTrace.mp hs).1, fun s hs b hb hsb =>
    mem_flatMap_ofTrace.mpr ⟨hs, hsb ▸ (mem_flatMap_ofTrace.mp hb).2⟩⟩
  have hnodup : (ids.flatMap fun id => ofTrace id spans).Nodup := by
    refine nodup_flatMap.mpr ⟨fun id _ => (List.Nodup.of_map _ h).filter _, ?_⟩
    refine hids.imp fun {a b} hab => disjoint_left.mpr fun s hs hs' => hab ?_
    rw [← of_decide_eq_true (mem_filter.mp hs).2, of_decide_eq_true (mem_filter.mp hs').2]
  refine hnodup.map_on fun a ha b hb hab => ?_
  exact inj_on_of_nodup_map h (mem_flatMap_ofTrace.mp ha).1 (mem_flatMap_ofTrace.mp hb).1 hab

/-- Traces of the one part and of the other, split by trace id. -/
theorem WholeTraces.append (h : (spans.map Span.id).Nodup)
    (hb : WholeTraces (spans.filter fun s => decide (s.traceID ∉ ids)) bare) :
    WholeTraces spans ((spans.filter fun s => decide (s.traceID ∈ ids)) ++ bare) := by
  have hin := WholeTraces.filter h ids
  have hout : ∀ s ∈ bare, s ∈ spans ∧ s.traceID ∉ ids := fun s hs => by
    simpa using hb.sub s hs
  refine ⟨?_, fun s hs => ?_, fun s hs b hb' hsb => ?_⟩
  · rw [map_append, nodup_append]
    refine ⟨hin.nodup, hb.nodup, ?_⟩
    rintro i hi j hj rfl
    obtain ⟨a, ha, rfl⟩ := mem_map.mp hi
    obtain ⟨b, hb', hab⟩ := mem_map.mp hj
    have heq : b = a := inj_on_of_nodup_map h (hout b hb').1 (hin.sub a ha) hab
    exact (hout b hb').2 (heq ▸ of_decide_eq_true (mem_filter.mp ha).2)
  · rcases mem_append.mp hs with hs | hs
    · exact hin.sub s hs
    · exact (hout s hs).1
  · rcases mem_append.mp hb' with hb' | hb'
    · exact mem_append_left _ (hin.whole s hs b hb' hsb)
    · refine mem_append_right _ (hb.whole s (mem_filter.mpr ⟨hs, ?_⟩) b hb' hsb)
      rw [hsb]
      exact decide_eq_true (hout b hb').2

theorem retouched_markDurable (ids : List String) (l : List Span) :
    List.Forall₂ Retouched l (markDurable ids l) :=
  retouched_map (fun s => by split; exacts [retouched_durable s, .refl s]) l

theorem mem_interestingTraceIDs {c : Classifier} {m : Moment} (hs : s ∈ spans)
    (hi : c.interesting m s = true) : s.traceID ∈ interestingTraceIDs c m spans :=
  mem_map_of_mem (mem_filter.mpr ⟨hs, hi⟩)

/-- What is kept are the copies of whole traces, among them every trace with an error, a slow or a
    verbose span. -/
theorem classify_whole (c : Classifier) (m : Moment) (floors : Floors)
    (h : (spans.map Span.id).Nodup) :
    ∃ bare, List.Forall₂ Retouched bare (classifySpansForStorage c m floors spans).kept ∧
      WholeTraces spans bare ∧
      ∀ i ∈ spans, c.interesting m i = true → i ∈ bare := by
  unfold classifySpansForStorage
  split
  · exact ⟨spans, forall₂_same.mpr fun s _ => .refl s, .all h, fun i hi _ => hi⟩
  · have hin : ∀ i ∈ spans, c.interesting m i = true →
        i ∈ spans.filter fun s => decide (s.traceID ∈ interestingTraceIDs c m spans) := fun i hi hint =>
      mem_filter.mpr ⟨hi, decide_eq_true (mem_interestingTraceIDs hi hint)⟩
    dsimp only
    split
    · exact ⟨_, retouched_markDurable _ _, .filter h _, hin⟩
    · rename_i policy _
      have hb : ((spans.filter fun s =>
          decide (s.traceID ∉ interestingTraceIDs c m spans)).map Span.id).Nodup :=
        h.sublist (filter_sublist.map _)
      obtain ⟨ids, hsub, hall⟩ := keepBoring_spec c m policy _ _ _ fun e he => groups_spans he
      refine ⟨_, rel_append (retouched_markDurable _ _) hall,
        .append h (.flatMap hb (hsub.nodup (nodup_keys_gather _))), fun i hi hint => ?_⟩
      exact mem_append_left _ (hin i hi hint)

end Spanbarn.Staging
