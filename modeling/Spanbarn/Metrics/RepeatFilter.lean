import Spanbarn.Metrics.Rollup
import Spanbarn.Schemes.Run
import Spanbarn.Schemes.Thin

/-! Cumulative points that repeat the point before them.

    A process sends every cumulative series on every export, changed or not. The filter in front of the
    raw table tracks each stream (a series from one process) and holds a repeat back. It is written
    after all when its stream changes, right before the change, or when the series gets a new stream;
    and once per heartbeat a repeat is written as it is.

        stream    10   10   10   11   11   11 ···
                  │    ·    │    │    ·    ·            · left out
        written   10        10   11                     (10 was held when 11 came)

    When a stream was last seen only matters to the sweep, so it is kept apart from the streams. -/

namespace Spanbarn.Metrics
open List Spanbarn.Schemes

/-- A data point with the start time of the process that sent it. -/
structure RawPoint extends MetricRecord where
  startTimeUnixNano : ℕ := 0
  deriving DecidableEq

structure RepeatSeries where
  projectID : ℤ
  name : String
  attrs : String
  deriving DecidableEq

structure RepeatKey extends RepeatSeries where
  start : ℕ
  deriving DecidableEq

def RawPoint.series (p : RawPoint) : RepeatSeries := ⟨p.projectID, p.name, p.attributes⟩

def RawPoint.repeatKey (p : RawPoint) : RepeatKey := ⟨p.series, p.startTimeUnixNano⟩

/-- What a repeat repeats. -/
def RawPoint.face (p : RawPoint) : ℚ × ℕ × String := (p.value, p.count, p.extra)

structure RepeatStream where
  face : ℚ × ℕ × String
  /-- The time of the last point written. -/
  written : ℕ
  held : Option RawPoint

/-- The streams, and the start times of each series' streams. -/
structure RepeatStreams where
  streams : Dict RepeatKey RepeatStream := ∅
  starts : Dict RepeatSeries (List ℕ) := ∅

structure MetricRepeatFilter where
  /-- In nanoseconds. -/
  heartbeat : ℕ
  tracked : RepeatStreams := {}
  seen : Dict RepeatKey ℤ := ∅
  lastSweep : ℤ := zeroTime

/-- A heartbeat of zero or less disables the filter. -/
def newMetricRepeatFilter (heartbeat : ℤ) : Option MetricRepeatFilter :=
  if heartbeat ≤ 0 then none else some { heartbeat := heartbeat.toNat }

/-! ### One point -/

/-- The point belongs to a stream that the filter tracks. -/
def repeatFiltered (p : RawPoint) : Bool :=
  decide (p.temporality = .cumulative ∧ p.startTimeUnixNano ≠ 0 ∧
    (p.type = .sum ∨ p.type = .histogram ∨ p.type = .exponentialHistogram))

/-- A stream whose held point is written. -/
def RepeatStream.released (st : RepeatStream) : RepeatStream :=
  match st.held with
  | none => st
  | some h => { st with written := h.timeUnixNano, held := none }

/-- The loop of `release` over the start times of a series. -/
def releaseStarts (series : RepeatSeries) :
    Dict RepeatKey RepeatStream → List ℕ → Dict RepeatKey RepeatStream × List RawPoint
  | streams, [] => (streams, [])
  | streams, start :: rest =>
    match streams.lookup ⟨series, start⟩ with
    | none => releaseStarts series streams rest
    | some st =>
      let r := releaseStarts series (streams.insert ⟨series, start⟩ st.released) rest
      (r.1, st.held.toList ++ r.2)

/-- Write the held points of the streams of a series. -/
def RepeatStreams.release (s : RepeatStreams) (series : RepeatSeries) :
    RepeatStreams × List RawPoint :=
  let r := releaseStarts series s.streams ((s.starts.lookup series).getD [])
  ({ s with streams := r.1 }, r.2)

/-- A point of a tracked stream: the streams after it, and what is written. -/
def RepeatStreams.track (s : RepeatStreams) (heartbeat : ℕ) (p : RawPoint) :
    RepeatStreams × List RawPoint :=
  match s.streams.lookup p.repeatKey with
  | none =>
    let (s, out) := s.release p.series
    ({ streams := s.streams.insert p.repeatKey ⟨p.face, p.timeUnixNano, none⟩
       starts := s.starts.insert p.series
        ((s.starts.lookup p.series).getD [] ++ [p.startTimeUnixNano]) },
      out ++ [p])
  | some st =>
    if st.face = p.face then
      -- the sum is taken in 64 bits
      if (st.written + heartbeat) % 2 ^ 64 ≤ p.timeUnixNano then
        ({ s with streams := s.streams.insert p.repeatKey ⟨st.face, p.timeUnixNano, none⟩ }, [p])
      else ({ s with streams := s.streams.insert p.repeatKey { st with held := some p } }, [])
    else
      ({ s with streams := s.streams.insert p.repeatKey ⟨p.face, p.timeUnixNano, none⟩ },
        st.held.toList ++ [p])

def RepeatStreams.keep (s : RepeatStreams) (heartbeat : ℕ) (p : RawPoint) :
    RepeatStreams × List RawPoint :=
  if repeatFiltered p then s.track heartbeat p else (s, [p])

/-! ### A batch -/

/-- The points of a batch one by one. -/
def RepeatStreams.keepAll (heartbeat : ℕ) :
    RepeatStreams → List RawPoint → RepeatStreams × List RawPoint
  | s, [] => (s, [])
  | s, p :: rest =>
    let (s, out) := s.keep heartbeat p
    let r := keepAll heartbeat s rest
    (r.1, out ++ r.2)

/-- Three heartbeats, in 64 bits. -/
def MetricRepeatFilter.idle (f : MetricRepeatFilter) : ℤ := int64 (3 * f.heartbeat)

/-- The streams not seen for that long. -/
def MetricRepeatFilter.expired (f : MetricRepeatFilter) (now : ℤ) : List RepeatKey :=
  (f.seen.entries.filter fun e => decide (f.idle ≤ now - e.2)).map Sigma.fst

def MetricRepeatFilter.forget (f : MetricRepeatFilter) (k : RepeatKey) : MetricRepeatFilter :=
  let starts := ((f.tracked.starts.lookup k.toRepeatSeries).getD []).filter fun s => decide (s ≠ k.start)
  { f with
    tracked :=
      { streams := f.tracked.streams.erase k
        starts := if starts = [] then f.tracked.starts.erase k.toRepeatSeries
          else f.tracked.starts.insert k.toRepeatSeries starts }
    seen := f.seen.erase k }

/-- The sweep is due. -/
def MetricRepeatFilter.sweepDue (f : MetricRepeatFilter) (now : ℤ) : Bool :=
  decide (f.idle ≤ now - f.lastSweep)

def MetricRepeatFilter.sweep (f : MetricRepeatFilter) (now : ℤ) : MetricRepeatFilter :=
  if f.sweepDue now then (f.expired now).foldl forget { f with lastSweep := now } else f

/-- The points go through the filter; the sweep follows. -/
def MetricRepeatFilter.accept (f : MetricRepeatFilter) (recs : List RawPoint) (now : ℤ) :
    MetricRepeatFilter × List RawPoint :=
  let r := f.tracked.keepAll f.heartbeat recs
  ({ f with
      tracked := r.1
      seen := (recs.filter repeatFiltered).foldl (fun d p => d.insert p.repeatKey now) f.seen }, r.2)

/-- `Keep`: the filter after a batch, and the points to write. A nil filter keeps all. -/
def keepBatch (f : Option MetricRepeatFilter) (recs : List RawPoint) (now : ℤ) :
    Option MetricRepeatFilter × List RawPoint :=
  match f with
  | none => (none, recs)
  | some f =>
    let r := f.accept recs now
    (some (r.1.sweep now), r.2)

/-! ### The points of a table -/

/-- The filter, the points that came and those that were written. -/
structure RawTable where
  filter : Option MetricRepeatFilter
  arrived : List RawPoint := []
  kept : List RawPoint := []

structure PointBatch where
  points : List RawPoint
  now : ℤ

/-- The sweep after the batch forgets a stream. -/
def RawTable.forgets (s : RawTable) (b : PointBatch) : Bool :=
  s.filter.any fun f =>
    let f := (f.accept b.points b.now).1
    f.sweepDue b.now && decide (f.expired b.now ≠ [])

/-- A batch that the sweep forgets no stream after. -/
def RawTable.step (s : RawTable) (b : PointBatch) : Option RawTable :=
  if s.forgets b then none
  else
    let r := keepBatch s.filter b.points b.now
    some ⟨r.1, s.arrived ++ b.points, s.kept ++ r.2⟩

/-! ### A stream -/

/-- Less than a heartbeat after a point. -/
def Near (heartbeat : ℕ) (w p : RawPoint) : Prop := p.timeUnixNano < w.timeUnixNano + heartbeat

/-- A stream that has seen the points `a` and written `k`: behind the last point written there are
    only repeats of it, and the newest of them is held. -/
def Follows (heartbeat : ℕ) (a k : List RawPoint) : Option RepeatStream → Prop
  | none => a = [] ∧ k = []
  | some st => ∃ front back l, a = front ++ back ∧
      Thinned RawPoint.face (Near heartbeat) front k ∧ k.getLast? = some l ∧
      st.face = l.face ∧ st.written = l.timeUnixNano ∧
      (∀ q ∈ back, q.face = l.face ∧ Near heartbeat l q) ∧ st.held = back.getLast?

section follows
variable {heartbeat : ℕ} {a k : List RawPoint} {st : RepeatStream} {p : RawPoint}

theorem Follows.held_mem (h : Follows heartbeat a k (some st)) (hp : st.held = some p) : p ∈ a := by
  obtain ⟨front, back, l, rfl, -, -, -, -, -, hheld⟩ := h
  exact mem_append_right _ (mem_of_getLast? (hheld.symm.trans hp))

theorem Follows.release (h : Follows heartbeat a k (some st)) :
    Follows heartbeat a (k ++ st.held.toList) (some st.released) := by
  obtain ⟨front, back, l, rfl, hthin, hl, hface, hwritten, hback, hheld⟩ := h
  rw [RepeatStream.released]
  cases hst : st.held with
  | none =>
    rw [Option.toList_none, append_nil]
    exact ⟨front, back, l, rfl, hthin, hl, hface, hwritten, hback, hheld⟩
  | some p =>
    obtain ⟨init, rfl⟩ := List.getLast?_eq_some_iff.mp (hheld.symm.trans hst)
    obtain ⟨hinit, hp⟩ := forall_mem_append.mp hback
    have hp := hp p mem_cons_self
    refine ⟨front ++ init ++ [p], [], p, ?_, hthin.skip hl hinit hp.1, List.getLast?_concat,
      hface.trans hp.1.symm, rfl, forall_mem_nil _, rfl⟩
    rw [append_nil, append_assoc]

/-- A point that is written with nothing held. -/
theorem Follows.write (h : Follows heartbeat a k (some st)) (hst : st.held = none) :
    Follows heartbeat (a ++ [p]) (k ++ [p]) (some ⟨p.face, p.timeUnixNano, none⟩) := by
  obtain ⟨front, back, l, rfl, hthin, -, -, -, -, hheld⟩ := h
  have hback : back = [] := List.getLast?_eq_none_iff.mp (hheld.symm.trans hst)
  rw [hback, append_nil]
  exact ⟨front ++ [p], [], p, (append_nil _).symm, hthin.keep, List.getLast?_concat, rfl, rfl,
    forall_mem_nil _, rfl⟩

theorem released_held (st : RepeatStream) : st.released.held = none := by
  rw [RepeatStream.released]
  split
  · assumption
  · rfl

/-- The first point. -/
theorem Follows.first (h : Follows heartbeat a k none) :
    Follows heartbeat (a ++ [p]) (k ++ [p]) (some ⟨p.face, p.timeUnixNano, none⟩) := by
  obtain ⟨rfl, rfl⟩ := h
  exact ⟨[p], [], p, rfl, Thinned.nil.keep, rfl, rfl, rfl, forall_mem_nil _, rfl⟩

/-- A change. -/
theorem Follows.change (h : Follows heartbeat a k (some st)) :
    Follows heartbeat (a ++ [p]) (k ++ (st.held.toList ++ [p]))
      (some ⟨p.face, p.timeUnixNano, none⟩) := by
  rw [← append_assoc]
  exact h.release.write (released_held st)

/-- A repeat after a heartbeat. -/
theorem Follows.beat (h : Follows heartbeat a k (some st)) (hp : st.face = p.face) :
    Follows heartbeat (a ++ [p]) (k ++ [p]) (some ⟨st.face, p.timeUnixNano, none⟩) := by
  obtain ⟨front, back, l, rfl, hthin, hl, hface, -, hback, -⟩ := h
  exact ⟨front ++ back ++ [p], [], p, (append_nil _).symm,
    hthin.skip hl hback (hp.symm.trans hface), List.getLast?_concat, hp, rfl, forall_mem_nil _,
    rfl⟩

/-- A repeat within a heartbeat. -/
theorem Follows.hold (h : Follows heartbeat a k (some st)) (hp : st.face = p.face)
    (ht : p.timeUnixNano < (st.written + heartbeat) % 2 ^ 64) :
    Follows heartbeat (a ++ [p]) k (some { st with held := some p }) := by
  obtain ⟨front, back, l, rfl, hthin, hl, hface, hwritten, hback, -⟩ := h
  refine ⟨front, back ++ [p], l, append_assoc _ _ _, hthin, hl, hface, hwritten, ?_,
    List.getLast?_concat.symm⟩
  refine forall_mem_append.mpr ⟨hback, forall_mem_singleton.mpr
    ⟨hp.symm.trans hface, ?_⟩⟩
  rw [Near, ← hwritten]
  exact ht.trans_le (Nat.mod_le _ _)

/-- Which of the points were written. -/
theorem Follows.marks {o : Option RepeatStream} (h : Follows heartbeat a k o) :
    ∃ m, pick m a = k ∧ Marks RawPoint.face (Near heartbeat) a m := by
  cases o with
  | none =>
    obtain ⟨rfl, rfl⟩ := h
    have hnil : Thinned RawPoint.face (Near heartbeat) [] [] := .nil
    obtain ⟨m, hm, hmarks, -⟩ := hnil.marks
    exact ⟨m, hm, hmarks⟩
  | some st =>
    obtain ⟨front, back, l, rfl, hthin, hl, -, -, hback, -⟩ := h
    obtain ⟨m, hm, hmarks, hlast⟩ := hthin.marks
    have hfl : front.getLast? = some l := hthin.getLast.trans hl
    have hne : front ≠ [] := fun hnil => by
      rw [hnil] at hfl
      cases hfl
    exact ⟨_, pick_leave.trans hm, hmarks.leave hfl (hlast hne) hback⟩

end follows

/-! ### All streams -/

/-- The point is of the stream. -/
def RawPoint.ofStream (k : RepeatKey) (p : RawPoint) : Bool :=
  repeatFiltered p && decide (p.repeatKey = k)

/-- Every stream has seen its points and written some of them; the starts are those of the streams. -/
structure Tracks (heartbeat : ℕ) (s : RepeatStreams) (a k : List RawPoint) : Prop where
  follows : ∀ key,
    Follows heartbeat (a.filter (RawPoint.ofStream key)) (k.filter (RawPoint.ofStream key))
    (s.streams.lookup key)
  nodup : ∀ series, ((s.starts.lookup series).getD []).Nodup
  starts : ∀ series start, start ∈ (s.starts.lookup series).getD [] ↔
    (s.streams.lookup ⟨series, start⟩).isSome = true
  passed : k.filter (fun p => !repeatFiltered p) = a.filter (fun p => !repeatFiltered p)

section release
variable {heartbeat : ℕ} {series : RepeatSeries}

/-- A key other than the first is released with the rest. -/
theorem released_cons {key : RepeatKey} {start : ℕ} {rest : List ℕ} (hne : key ≠ ⟨series, start⟩) :
    (key.toRepeatSeries = series ∧ key.start ∈ start :: rest) ↔
      key.toRepeatSeries = series ∧ key.start ∈ rest := by
  refine and_congr_right fun hs => mem_cons.trans (or_iff_right fun he => hne ?_)
  rw [← hs, ← he]

theorem releaseStarts_lookup : ∀ {starts : List ℕ} {streams : Dict RepeatKey RepeatStream}
    (key : RepeatKey), starts.Nodup →
    (releaseStarts series streams starts).1.lookup key =
      if key.toRepeatSeries = series ∧ key.start ∈ starts then
        (streams.lookup key).map RepeatStream.released
      else streams.lookup key
  | [], streams, key, _ => by simp [releaseStarts]
  | start :: rest, streams, key, h => by
    obtain ⟨hnot, hrest⟩ := nodup_cons.mp h
    rw [releaseStarts]
    cases hlook : streams.lookup ⟨series, start⟩ with
    | none =>
      dsimp only
      rw [releaseStarts_lookup key hrest]
      by_cases hk : key = ⟨series, start⟩
      · subst hk
        simp [hlook]
      · simp only [released_cons hk]
    | some st =>
      dsimp only
      rw [releaseStarts_lookup key hrest]
      by_cases hk : key = ⟨series, start⟩
      · subst hk
        simp [hlook, hnot]
      · simp only [released_cons hk, AList.lookup_insert_ne hk]

/-- Every held point is of its stream. -/
def HoldsOwn (streams : Dict RepeatKey RepeatStream) : Prop :=
  ∀ key st p, streams.lookup key = some st → st.held = some p → p.ofStream key = true

theorem holdsOwn_release {streams : Dict RepeatKey RepeatStream} {key : RepeatKey} {st : RepeatStream}
    (h : HoldsOwn streams) : HoldsOwn (streams.insert key st.released) := by
  intro key' st' p hst' hp
  rcases lookup_of_insert hst' with ⟨-, rfl⟩ | ⟨-, hst'⟩
  · rw [released_held] at hp
    cases hp
  · exact h key' st' p hst' hp

theorem filter_held {key key' : RepeatKey} {o : Option RawPoint}
    (h : ∀ p, o = some p → p.ofStream key' = true) :
    o.toList.filter (RawPoint.ofStream key) = if key = key' then o.toList else [] := by
  cases o with
  | none => simp
  | some p =>
    have hp := h p rfl
    rw [RawPoint.ofStream, Bool.and_eq_true, decide_eq_true_eq] at hp
    by_cases hk : key = key'
    · simp [RawPoint.ofStream, hp.1, hp.2, hk]
    · simp [RawPoint.ofStream, hp.1, hp.2, hk, Ne.symm hk]

theorem releaseStarts_out : ∀ {starts : List ℕ} {streams : Dict RepeatKey RepeatStream}
    (key : RepeatKey), starts.Nodup → HoldsOwn streams →
    (releaseStarts series streams starts).2.filter (RawPoint.ofStream key) =
      if key.toRepeatSeries = series ∧ key.start ∈ starts then
        ((streams.lookup key).bind RepeatStream.held).toList
      else []
  | [], streams, key, _, _ => by simp [releaseStarts]
  | start :: rest, streams, key, h, hown => by
    obtain ⟨hnot, hrest⟩ := nodup_cons.mp h
    rw [releaseStarts]
    cases hlook : streams.lookup ⟨series, start⟩ with
    | none =>
      dsimp only
      rw [releaseStarts_out key hrest hown]
      by_cases hk : key = ⟨series, start⟩
      · subst hk
        simp [hlook]
      · simp only [released_cons hk]
    | some st =>
      dsimp only
      rw [filter_append, filter_held fun p hp => hown _ st p hlook hp,
        releaseStarts_out key hrest (holdsOwn_release hown)]
      by_cases hk : key = ⟨series, start⟩
      · subst hk
        simp [hlook, hnot]
      · simp only [released_cons hk, AList.lookup_insert_ne hk, if_neg hk, nil_append]

theorem releaseStarts_tracked : ∀ {starts : List ℕ} {streams : Dict RepeatKey RepeatStream},
    HoldsOwn streams → ∀ p ∈ (releaseStarts series streams starts).2, repeatFiltered p = true
  | [], _, _, p, hp => nomatch hp
  | start :: rest, streams, hown, p, hp => by
    rw [releaseStarts] at hp
    cases hlook : streams.lookup ⟨series, start⟩ with
    | none =>
      rw [hlook] at hp
      exact releaseStarts_tracked hown p hp
    | some st =>
      rw [hlook] at hp
      rcases mem_append.mp hp with hp | hp
      · have hof := hown _ st p hlook (Option.mem_toList.mp hp)
        exact (Bool.and_eq_true _ _ ▸ hof).1
      · exact releaseStarts_tracked (holdsOwn_release hown) p hp

end release

section tracks
variable {heartbeat : ℕ} {s : RepeatStreams} {a k : List RawPoint} {p : RawPoint}

theorem Tracks.holdsOwn (h : Tracks heartbeat s a k) : HoldsOwn s.streams := by
  intro key st p hst hp
  have hfollows := h.follows key
  rw [hst] at hfollows
  exact (mem_filter.mp (hfollows.held_mem hp)).2

theorem ofStream_self (hp : repeatFiltered p = true) : p.ofStream p.repeatKey = true := by
  rw [RawPoint.ofStream, hp, decide_eq_true rfl, Bool.and_self]

theorem ofStream_other {key : RepeatKey} (hkey : key ≠ p.repeatKey) : p.ofStream key = false := by
  rw [RawPoint.ofStream, decide_eq_false (Ne.symm hkey), Bool.and_false]

theorem filter_snoc_self (l : List RawPoint) (hp : repeatFiltered p = true) :
    (l ++ [p]).filter (RawPoint.ofStream p.repeatKey) =
      l.filter (RawPoint.ofStream p.repeatKey) ++ [p] := by
  rw [filter_append, filter_cons_of_pos (ofStream_self hp), filter_nil]

theorem filter_snoc_other (l : List RawPoint) {key : RepeatKey} (hkey : key ≠ p.repeatKey) :
    (l ++ [p]).filter (RawPoint.ofStream key) = l.filter (RawPoint.ofStream key) := by
  rw [filter_append, filter_cons_of_neg (by rw [ofStream_other hkey]; exact Bool.false_ne_true),
    filter_nil, append_nil]

/-- A point of a known stream. -/
theorem Tracks.known {st st' : RepeatStream} {out : List RawPoint} (h : Tracks heartbeat s a k)
    (hp : repeatFiltered p = true) (hst : s.streams.lookup p.repeatKey = some st)
    (hout : ∀ q ∈ out, q.ofStream p.repeatKey = true)
    (hfollows : Follows heartbeat (a.filter (RawPoint.ofStream p.repeatKey) ++ [p])
      (k.filter (RawPoint.ofStream p.repeatKey) ++ out) (some st')) :
    Tracks heartbeat { s with streams := s.streams.insert p.repeatKey st' } (a ++ [p]) (k ++ out) where
  follows := by
    intro key
    by_cases hkey : key = p.repeatKey
    · subst hkey
      rw [filter_snoc_self a hp, filter_append, filter_eq_self.mpr hout, AList.lookup_insert]
      exact hfollows
    · have hnone : out.filter (RawPoint.ofStream key) = [] := by
        refine filter_eq_nil_iff.mpr fun q hq hof => hkey ?_
        have hown := hout q hq
        rw [RawPoint.ofStream, Bool.and_eq_true, decide_eq_true_eq] at hown hof
        exact hof.2.symm.trans hown.2
      rw [filter_snoc_other a hkey, filter_append, hnone, append_nil,
        AList.lookup_insert_ne hkey]
      exact h.follows key
  nodup := h.nodup
  starts := by
    intro series start
    rw [h.starts series start]
    by_cases hkey : (⟨series, start⟩ : RepeatKey) = p.repeatKey
    · rw [hkey, AList.lookup_insert, hst]
      rfl
    · rw [AList.lookup_insert_ne hkey]
  passed := by
    have hnone : out.filter (fun q => !repeatFiltered q) = [] := by
      refine filter_eq_nil_iff.mpr fun q hq hof => ?_
      have hown := (Bool.and_eq_true _ _ ▸ hout q hq).1
      rw [hown] at hof
      cases hof
    rw [filter_append, filter_append, hnone, filter_cons_of_neg (by simp [hp]),
      filter_nil, append_nil, append_nil]
    exact h.passed

/-- STEP: a point of a stream that is new releases the other streams of its series. -/
theorem Tracks.new (h : Tracks heartbeat s a k) (hp : repeatFiltered p = true)
    (hnew : s.streams.lookup p.repeatKey = none) :
    Tracks heartbeat (s.track heartbeat p).1 (a ++ [p]) (k ++ (s.track heartbeat p).2) := by
  have hfresh : p.startTimeUnixNano ∉ (s.starts.lookup p.series).getD [] := fun hmem => by
    have hsome := (h.starts _ _).mp hmem
    rw [show (⟨p.series, p.startTimeUnixNano⟩ : RepeatKey) = p.repeatKey from rfl, hnew] at hsome
    cases hsome
  have hlook : ∀ key, (s.release p.series).1.streams.lookup key = _ := fun key =>
    releaseStarts_lookup key (h.nodup p.series)
  have hout : ∀ key, (s.release p.series).2.filter (RawPoint.ofStream key) = _ := fun key =>
    releaseStarts_out key (h.nodup p.series) h.holdsOwn
  rw [RepeatStreams.track, hnew]
  dsimp only
  refine ⟨fun key => ?_, fun series => ?_, fun series start => ?_, ?_⟩
  · by_cases hkey : key = p.repeatKey
    · subst hkey
      have hnone : (s.release p.series).2.filter (RawPoint.ofStream p.repeatKey) = [] := by
        rw [hout, hnew]
        simp
      rw [filter_snoc_self a hp, ← append_assoc, filter_snoc_self _ hp, filter_append, hnone,
        append_nil, AList.lookup_insert]
      have hfollows := h.follows p.repeatKey
      rw [hnew] at hfollows
      exact hfollows.first
    · rw [filter_snoc_other a hkey, ← append_assoc, filter_snoc_other _ hkey, filter_append,
        hout, AList.lookup_insert_ne hkey, hlook]
      have hfollows := h.follows key
      split
      · cases hst : s.streams.lookup key with
        | none =>
          rw [hst] at hfollows
          rw [Option.bind_none, Option.toList_none, append_nil]
          exact hfollows
        | some st =>
          rw [hst] at hfollows
          exact hfollows.release
      · rw [append_nil]
        exact hfollows
  · by_cases hs : series = p.series
    · subst hs
      rw [AList.lookup_insert, Option.getD_some]
      refine (h.nodup p.series).append (nodup_singleton _) fun x hx hxp => ?_
      exact hfresh (mem_singleton.mp hxp ▸ hx)
    · rw [AList.lookup_insert_ne hs]
      exact h.nodup series
  · have hsame : ∀ key, ((s.release p.series).1.streams.lookup key).isSome =
        (s.streams.lookup key).isSome := by
      intro key
      rw [hlook]
      split
      · exact Option.isSome_map
      · rfl
    by_cases hkey : (⟨series, start⟩ : RepeatKey) = p.repeatKey
    · have hs : series = p.series := congrArg RepeatKey.toRepeatSeries hkey
      have hstart : start = p.startTimeUnixNano := congrArg RepeatKey.start hkey
      subst hs hstart
      rw [AList.lookup_insert, Option.getD_some, hkey, AList.lookup_insert]
      simp
    · rw [AList.lookup_insert_ne hkey, hsame, ← h.starts series start]
      by_cases hs : series = p.series
      · subst hs
        have hne : start ≠ p.startTimeUnixNano := fun he => hkey (by rw [he]; rfl)
        rw [AList.lookup_insert, Option.getD_some, mem_append, mem_singleton]
        exact or_iff_left hne
      · rw [AList.lookup_insert_ne hs]
        rfl
  · have hnone : (s.release p.series).2.filter (fun q => !repeatFiltered q) = [] :=
      filter_eq_nil_iff.mpr fun q hq => by simp [releaseStarts_tracked h.holdsOwn q hq]
    rw [← append_assoc, filter_append, filter_append, filter_append, hnone,
      filter_cons_of_neg (by simp [hp]), filter_nil, append_nil, append_nil,
      append_nil]
    exact h.passed

/-- STEP: every point. -/
theorem Tracks.keep (h : Tracks heartbeat s a k) (p : RawPoint) :
    Tracks heartbeat (s.keep heartbeat p).1 (a ++ [p]) (k ++ (s.keep heartbeat p).2) := by
  rw [RepeatStreams.keep]
  by_cases hp : repeatFiltered p = true
  · rw [if_pos hp]
    cases hst : s.streams.lookup p.repeatKey with
    | none => exact h.new hp hst
    | some st =>
      have hfollows := h.follows p.repeatKey
      rw [hst] at hfollows
      rw [RepeatStreams.track, hst]
      dsimp only
      split
      · rename_i hface
        split
        · exact h.known hp hst (forall_mem_singleton.mpr (ofStream_self hp)) (hfollows.beat hface)
        · rename_i ht
          refine h.known hp hst (forall_mem_nil _) ?_
          rw [append_nil]
          exact hfollows.hold hface (not_le.mp ht)
      · refine h.known hp hst (forall_mem_append.mpr ⟨fun q hq => ?_, ?_⟩) hfollows.change
        · exact h.holdsOwn _ st q hst (Option.mem_toList.mp hq)
        · exact forall_mem_singleton.mpr (ofStream_self hp)
  · rw [if_neg hp]
    rw [Bool.not_eq_true] at hp
    have hnot : ∀ key, p.ofStream key = false := fun key => by rw [RawPoint.ofStream, hp, Bool.false_and]
    refine ⟨fun key => ?_, h.nodup, h.starts, ?_⟩
    · rw [filter_append, filter_append,
        filter_cons_of_neg (by rw [hnot]; exact Bool.false_ne_true), filter_nil,
        append_nil, append_nil]
      exact h.follows key
    · rw [filter_append, filter_append, h.passed]

/-- RUN: a batch. -/
theorem Tracks.keepAll : ∀ (recs : List RawPoint) {s : RepeatStreams} {a k : List RawPoint},
    Tracks heartbeat s a k →
    Tracks heartbeat (s.keepAll heartbeat recs).1 (a ++ recs) (k ++ (s.keepAll heartbeat recs).2)
  | [], s, a, k, h => by
    rw [append_nil]
    exact (append_nil k).symm ▸ h
  | p :: recs, s, a, k, h => by
    have hrest := Tracks.keepAll recs (h.keep p)
    rw [append_assoc, append_assoc] at hrest
    exact hrest

end tracks

/-! ### Any number of batches -/

theorem keepAll_append (heartbeat : ℕ) : ∀ (s : RepeatStreams) (l r : List RawPoint),
    s.keepAll heartbeat (l ++ r) =
      (((s.keepAll heartbeat l).1.keepAll heartbeat r).1,
        (s.keepAll heartbeat l).2 ++ ((s.keepAll heartbeat l).1.keepAll heartbeat r).2)
  | _, [], _ => rfl
  | s, p :: l, r => by
    simp [RepeatStreams.keepAll, keepAll_append heartbeat _ l r]

/-- A sweep that forgets no stream leaves the streams. -/
theorem sweep_tracked {f : MetricRepeatFilter} {now : ℤ}
    (h : (f.sweepDue now && decide (f.expired now ≠ [])) = false) :
    (f.sweep now).tracked = f.tracked ∧ (f.sweep now).heartbeat = f.heartbeat := by
  rw [MetricRepeatFilter.sweep]
  split
  · rename_i hdue
    rw [hdue, Bool.true_and, decide_eq_false_iff_not, not_not] at h
    rw [h]
    exact ⟨rfl, rfl⟩
  · exact ⟨rfl, rfl⟩

/-- The table holds what one pass over all points that came would have written. -/
def RawTable.Whole (heartbeat : ℕ) (s : RawTable) : Prop :=
  match s.filter with
  | none => s.kept = s.arrived
  | some f => f.heartbeat = heartbeat ∧
      (RepeatStreams.keepAll heartbeat {} s.arrived) = (f.tracked, s.kept)

/-- STEP: a batch goes on where the one before ended. -/
theorem whole_step {heartbeat : ℕ} {s s' : RawTable} {b : PointBatch} (h : s.Whole heartbeat)
    (hstep : s.step b = some s') : s'.Whole heartbeat ∧ s'.arrived = s.arrived ++ b.points ∧
      s'.filter.isSome = s.filter.isSome := by
  rw [RawTable.step] at hstep
  split at hstep
  · cases hstep
  · rename_i hforgets
    obtain rfl := Option.some.inj hstep
    rw [RawTable.forgets, Bool.not_eq_true] at hforgets
    rw [RawTable.Whole] at h ⊢
    cases hf : s.filter with
    | none =>
      rw [hf] at h
      refine ⟨?_, rfl, rfl⟩
      change s.kept ++ b.points = s.arrived ++ b.points
      rw [show s.kept = s.arrived from h]
    | some f =>
      rw [hf] at h hforgets
      obtain ⟨hbeat, hall⟩ := h
      obtain ⟨htracked, hsame⟩ := sweep_tracked hforgets
      refine ⟨⟨hsame.trans hbeat, ?_⟩, rfl, rfl⟩
      change RepeatStreams.keepAll heartbeat {} (s.arrived ++ b.points) = _
      rw [keepAll_append, hall, keepBatch, htracked]
      dsimp only [MetricRepeatFilter.accept]
      rw [hbeat]

/-- RUN: any number of batches. -/
theorem whole_run {heartbeat : ℕ} : ∀ {batches : List PointBatch} {s s' : RawTable},
    s.Whole heartbeat → run RawTable.step s batches = some s' →
    s'.Whole heartbeat ∧ s'.arrived = s.arrived ++ batches.flatMap PointBatch.points ∧
      s'.filter.isSome = s.filter.isSome
  | [], s, s', h, hrun => by
    obtain rfl := Option.some.inj hrun
    exact ⟨h, (append_nil _).symm, rfl⟩
  | b :: batches, s, s', h, hrun => by
    obtain ⟨m, hm, hrest⟩ := run_cons.mp hrun
    obtain ⟨hwhole, harrived, hsome⟩ := whole_step h hm
    obtain ⟨hwhole', harrived', hsome'⟩ := whole_run hwhole hrest
    refine ⟨hwhole', ?_, hsome'.trans hsome⟩
    rw [harrived', harrived, flatMap_cons, append_assoc]

/-- RUN: from a new filter on, the table is what one pass over all points writes. -/
theorem run_whole {heartbeat : ℤ} {batches : List PointBatch} {s : RawTable}
    (h : run RawTable.step { filter := newMetricRepeatFilter heartbeat } batches = some s) :
    s.arrived = batches.flatMap PointBatch.points ∧
      (heartbeat ≤ 0 ∧ s.kept = s.arrived ∨
        ¬heartbeat ≤ 0 ∧ ∃ tracked, RepeatStreams.keepAll heartbeat.toNat {} s.arrived =
          (tracked, s.kept)) := by
  have hstart : RawTable.Whole heartbeat.toNat { filter := newMetricRepeatFilter heartbeat } := by
    rw [RawTable.Whole, newMetricRepeatFilter]
    by_cases hbeat : heartbeat ≤ 0
    · rw [if_pos hbeat]
    · rw [if_neg hbeat]
      exact ⟨rfl, rfl⟩
  obtain ⟨hwhole, harrived, hsome⟩ := whole_run hstart h
  refine ⟨harrived, ?_⟩
  rw [RawTable.Whole] at hwhole
  dsimp only at hsome
  rw [newMetricRepeatFilter] at hsome
  by_cases hbeat : heartbeat ≤ 0
  · rw [if_pos hbeat] at hsome
    have hnone : s.filter = none := by simpa using hsome
    rw [hnone] at hwhole
    exact .inl ⟨hbeat, hwhole⟩
  · rw [if_neg hbeat] at hsome
    obtain ⟨f, hf⟩ := Option.isSome_iff_exists.mp hsome
    rw [hf] at hwhole
    exact .inr ⟨hbeat, f.tracked, hwhole.2⟩

theorem tracks_empty (heartbeat : ℕ) : Tracks heartbeat {} [] [] where
  follows _ := ⟨rfl, rfl⟩
  nodup _ := nodup_nil
  starts _ _ := ⟨fun h => absurd h not_mem_nil, fun h => nomatch h⟩
  passed := rfl

/-- With everything written, every place is marked. -/
theorem marks_all {α β : Type*} (face : α → β) (near : α → α → Prop) (a : List α) :
    pick (fun _ => true) a = a ∧ Marks face near a fun _ => true := by
  refine ⟨?_, fun _ => rfl, fun _ _ _ _ _ _ => ⟨rfl, rfl⟩, fun _ _ _ h => nomatch h⟩
  rw [pick, filter_eq_self.mpr fun _ _ => rfl, zipIdx_map_fst]

/-- CORRECT: over any batches after which no stream is forgotten, the points written of a stream are
    those at places that hold its first point, every change and the point before each; any other point
    comes within a heartbeat of a written one that it repeats. Points that are not tracked all pass, and
    one batch of all the points writes the same. -/
theorem repeat_filter_keeps {heartbeat : ℤ} {batches : List PointBatch} {s : RawTable}
    (h : run RawTable.step { filter := newMetricRepeatFilter heartbeat } batches = some s) :
    s.arrived = batches.flatMap PointBatch.points ∧
    (∀ key, ∃ m,
      pick m (s.arrived.filter (RawPoint.ofStream key)) = s.kept.filter (RawPoint.ofStream key) ∧
      Marks RawPoint.face (Near heartbeat.toNat) (s.arrived.filter (RawPoint.ofStream key)) m) ∧
    s.kept.filter (fun p => !repeatFiltered p) = s.arrived.filter (fun p => !repeatFiltered p) ∧
    ∀ now, (keepBatch (newMetricRepeatFilter heartbeat) s.arrived now).2 = s.kept := by
  obtain ⟨harrived, hwhole⟩ := run_whole h
  refine ⟨harrived, ?_⟩
  rw [newMetricRepeatFilter]
  rcases hwhole with ⟨hbeat, hkept⟩ | ⟨hbeat, tracked, hall⟩
  · rw [if_pos hbeat, hkept]
    exact ⟨fun key => ⟨fun _ => true, marks_all _ _ _⟩, rfl, fun _ => rfl⟩
  · rw [if_neg hbeat]
    have htracks := Tracks.keepAll s.arrived (tracks_empty heartbeat.toNat)
    rw [hall, nil_append, nil_append] at htracks
    refine ⟨fun key => (htracks.follows key).marks, htracks.passed, fun now => ?_⟩
    exact congrArg Prod.snd hall

/-- A point of the process that started at `start`. -/
def requestPoint (start time : ℕ) (value : ℚ) : RawPoint where
  name := "requests"
  type := .sum
  temporality := .cumulative
  timeUnixNano := time
  value := value
  startTimeUnixNano := start

/-- A heartbeat of 100: the repeat at 30 is held and written before the change at 40, the one at 20 is
    left out. -/
theorem repeat_filter_keeps_change :
    ∃ s, run RawTable.step { filter := newMetricRepeatFilter 100 }
        [⟨[requestPoint 1 10 5, requestPoint 1 20 5], 1000⟩,
          ⟨[requestPoint 1 30 5, requestPoint 1 40 6], 2000⟩] = some s ∧
      s.kept = [requestPoint 1 10 5, requestPoint 1 30 5, requestPoint 1 40 6] ∧
      ∀ now, (keepBatch (newMetricRepeatFilter 100) s.arrived now).2 = s.kept := by
  have hrun : (run RawTable.step { filter := newMetricRepeatFilter 100 }
      [⟨[requestPoint 1 10 5, requestPoint 1 20 5], 1000⟩,
        ⟨[requestPoint 1 30 5, requestPoint 1 40 6], 2000⟩]).any (fun s => decide
          (s.kept = [requestPoint 1 10 5, requestPoint 1 30 5, requestPoint 1 40 6])) = true := by
    decide +kernel
  obtain ⟨s, hs, hkept⟩ := (Option.any_eq_true _ _).mp hrun
  exact ⟨s, hs, of_decide_eq_true hkept, (repeat_filter_keeps hs).2.2.2⟩

end Spanbarn.Metrics
