import Spanbarn.Metrics.Derive
import Spanbarn.Metrics.RepeatFilter
import Spanbarn.Schemes.Table

/-! Rates of the points that are left.

    The filter works per process, the rate is derived from the series. As long as the processes of a
    series follow each other, what is left out lies between two written points of its value. A series
    that does not look interleaved then does not with all points either, and the plain rate does not see
    what is left out:

        process 1   10 · 10 12 · 12               process 2 starts: 12 is written first
        process 2                   3 · 3 5       increase 2 + 3 + 2

    Processes that overlap leave out points that tell them apart:

        process 1   10      10      11            all      10  5  10  5  11    two processes, +1
        process 2       5       5                 written  10  5  10     11    a restart, +5 +5 +1  -/

namespace Spanbarn.Metrics
open List Spanbarn.Schemes

/-- A row of the raw table as a point. -/
def rawInput (codec : Codec) (p : RawPoint) : InputPoint :=
  let delta := decide (p.type = .sum ∧ p.temporality = .delta)
  { t := p.timeUnixNano
    value := p.value
    count := p.count
    attributes := parseAttributes codec p.attributes
    delta
    intervalNano := if delta = true ∧ 0 < p.startTimeUnixNano ∧ p.startTimeUnixNano < p.timeUnixNano then
      p.timeUnixNano - p.startTimeUnixNano else 0 }

def lineValues (points : List RawPoint) : List ℚ := points.map fun p => p.value

/-- `ORDER BY time_unix_nano`, up to a time. -/
def upTo (t : ℕ) (points : List RawPoint) : List RawPoint :=
  (sortRows (fun p : RawPoint => p.timeUnixNano) points).filter fun p => p.timeUnixNano ≤ t

/-! ### What a repeat does not change -/

section repeats
variable {V : Type*} [LinearOrder V]

theorem rebounds_third : ∀ (l : List V) (v : V) (m : List V),
    rebounds (l ++ v :: v :: v :: m) = rebounds (l ++ v :: v :: m)
  | [], v, m => by simp [rebounds]
  | [x], v, m => by simp [rebounds]
  | x :: y :: l, v, m => by
    have ih := rebounds_third (y :: l) v m
    cases l with
    | nil =>
      simp only [cons_append, nil_append, rebounds] at ih ⊢
      omega
    | cons z l =>
      simp only [cons_append, rebounds] at ih ⊢
      omega

theorem rebounds_end : ∀ (l : List V) (v : V), rebounds (l ++ [v, v]) = rebounds (l ++ [v])
  | [], v => rfl
  | [x], v => by
    have hnot : ¬(v < x ∧ x ≤ v) := fun h => absurd h.1 (not_lt.mpr h.2)
    simp [rebounds, if_neg hnot]
  | x :: y :: l, v => by
    have ih := rebounds_end (y :: l) v
    cases l with
    | nil =>
      simp only [cons_append, nil_append, rebounds] at ih ⊢
      omega
    | cons z l =>
      simp only [cons_append, rebounds] at ih ⊢
      omega

/-- The values so far rebound no more often than all of them. -/
theorem rebounds_le_append : ∀ l m : List V, rebounds l ≤ rebounds (l ++ m)
  | [], _ => Nat.zero_le _
  | [_], _ => Nat.zero_le _
  | [_, _], _ => Nat.zero_le _
  | a :: b :: c :: l, m => by
    have ih := rebounds_le_append (b :: c :: l) m
    simp only [cons_append, rebounds] at ih ⊢
    omega

end repeats

/-- `pairRises` of a whole line. -/
def lineRises : List InputPoint → ℚ
  | [] => 0
  | p :: rest => pairRises p rest

theorem pairRise_self {a b : InputPoint} (h : b.value = a.value) :
    (if a.t < b.t then rise a.value b.value else 0) = 0 := by
  rw [h, rise_self, ite_self]

theorem pairRises_third : ∀ (l : List InputPoint) (p a b c : InputPoint) (m : List InputPoint),
    b.value = a.value → c.value = a.value →
    pairRises p (l ++ a :: b :: c :: m) = pairRises p (l ++ a :: c :: m)
  | [], p, a, b, c, m, hb, hc => by
    simp [pairRises, pairRise_self hb, pairRise_self hc, pairRise_self (hc.trans hb.symm)]
  | x :: l, p, a, b, c, m, hb, hc => by
    rw [cons_append, cons_append, pairRises, pairRises, pairRises_third l x a b c m hb hc]

theorem lineRises_third (l : List InputPoint) (a b c : InputPoint) (m : List InputPoint)
    (hb : b.value = a.value) (hc : c.value = a.value) :
    lineRises (l ++ a :: b :: c :: m) = lineRises (l ++ a :: c :: m) := by
  cases l with
  | nil =>
    simp [lineRises, pairRises, pairRise_self hb, pairRise_self hc,
      pairRise_self (hc.trans hb.symm)]
  | cons x l => exact pairRises_third l x a b c m hb hc

theorem pairRises_end : ∀ (l : List InputPoint) (p a b : InputPoint), b.value = a.value →
    pairRises p (l ++ [a, b]) = pairRises p (l ++ [a])
  | [], p, a, b, hb => by
    simp [pairRises, pairRise_self hb]
  | x :: l, p, a, b, hb => by
    rw [cons_append, cons_append, pairRises, pairRises, pairRises_end l x a b hb]

theorem lineRises_end (l : List InputPoint) (a b : InputPoint) (hb : b.value = a.value) :
    lineRises (l ++ [a, b]) = lineRises (l ++ [a]) := by
  cases l with
  | nil => simp [lineRises, pairRises, pairRise_self hb]
  | cons x l => exact pairRises_end l x a b hb

theorem plainIncrease_line {points : List InputPoint}
    (h : points.Pairwise fun a b => a.t ≤ b.t) (hdelta : ∀ q ∈ points, q.delta = false) :
    plainIncrease points = lineRises points := by
  cases points with
  | nil => rfl
  | cons p rest => exact plainIncrease_pairs h hdelta

/-! ### Up to any time -/

/-- Points in the order of their times. -/
def Timely (points : List RawPoint) : Prop :=
  points.Pairwise fun x y => x.timeUnixNano ≤ y.timeUnixNano

variable {points : List RawPoint}

theorem upTo_eq (h : Timely points) (t : ℕ) :
    upTo t points = points.filter fun p => p.timeUnixNano ≤ t := by
  rw [upTo, sortRows, h.insertionSort_eq]

/-- The points up to a time come before those up to a later one. -/
theorem upTo_before (h : Timely points) {t t' : ℕ} (ht : t ≤ t') :
    ∃ later, upTo t' points = upTo t points ++ later := by
  rw [upTo_eq h, upTo_eq h]
  induction points with
  | nil => exact ⟨[], rfl⟩
  | cons p points ih =>
    obtain ⟨hp, hrest⟩ := pairwise_cons.mp h
    by_cases hpt : p.timeUnixNano ≤ t
    · obtain ⟨later, hlater⟩ := ih hrest
      refine ⟨later, ?_⟩
      rw [filter_cons_of_pos (by simpa using hpt.trans ht), filter_cons_of_pos (by simpa using hpt),
        hlater, cons_append]
    · -- all that follow are later still
      have hnone : (p :: points).filter (fun q => q.timeUnixNano ≤ t) = [] := by
        refine filter_eq_nil_iff.mpr fun q hq => ?_
        rw [decide_eq_true_eq, not_le]
        rcases mem_cons.mp hq with rfl | hq
        · exact not_le.mp hpt
        · exact (not_le.mp hpt).trans_le (hp q hq)
      exact ⟨_, by rw [hnone, nil_append]⟩

section window
variable {near : RawPoint → RawPoint → Prop} {front back kept : List RawPoint} {t : ℕ} {l : RawPoint}

/-- What does not see a repeat of a repeat, or a repeat at the end, is the same for what is left up to
    a time and for all points up to the last of those. -/
theorem thinned_same {γ : Type*} {F : List RawPoint → γ}
    (hthird : ∀ l a b c m, b.face = a.face → c.face = a.face →
      F (l ++ a :: b :: c :: m) = F (l ++ a :: c :: m))
    (hend : ∀ l a b, b.face = a.face → F (l ++ [a, b]) = F (l ++ [a]))
    (hthin : Thinned RawPoint.face near front kept)
    (hback : ∀ l, kept.getLast? = some l → ∀ q ∈ back, q.face = l.face)
    (hsorted : Timely (front ++ back)) (hl : (upTo t kept).getLast? = some l) :
    F (upTo t kept) = F (upTo l.timeUnixNano (front ++ back)) := by
  have hkept : Timely kept := (pairwise_append.mp hsorted).1.sublist hthin.sublist
  rw [upTo_eq hkept] at hl ⊢
  rw [upTo_eq hsorted]
  obtain ⟨a', e, hthin', hwindow⟩ := hthin.window t hback hsorted
  obtain ⟨hall, he⟩ := hwindow l hl
  obtain ⟨init, rfl⟩ := List.getLast?_eq_some_iff.mp (hthin'.getLast.trans hl)
  have hsame := hthin'.congr hthird []
  rw [append_nil, append_nil] at hsame
  rw [← hsame, hall, append_assoc, singleton_append]
  exact (trailing hend he).symm

theorem value_of_face {a b : RawPoint} (h : b.face = a.face) : b.value = a.value :=
  congrArg Prod.fst h

theorem upTo_mem {q : RawPoint} (h : q ∈ upTo t points) : q ∈ points :=
  (sortRows_perm _ points).mem_iff.mp (mem_of_mem_filter h)

theorem timely_upTo (points : List RawPoint) : Timely (upTo t points) :=
  (sortRows_sorted (fun p : RawPoint => p.timeUnixNano) points).filter _

theorem plainIncrease_upTo (codec : Codec) (h : ∀ p ∈ points, p.temporality ≠ .delta) :
    plainIncrease ((upTo t points).map (rawInput codec)) =
      lineRises ((upTo t points).map (rawInput codec)) := by
  refine plainIncrease_line (pairwise_map.mpr ?_) fun q hq => ?_
  · exact (timely_upTo points).imp fun hle => Int.ofNat_le.mpr hle
  · obtain ⟨p, hp, rfl⟩ := mem_map.mp hq
    exact decide_eq_false fun hd => h p (upTo_mem hp) hd.2

/-- What is left looks interleaved if all of it does, and its plain increase is that of all of it. -/
theorem thinned_increase (codec : Codec) (hthin : Thinned RawPoint.face near front kept)
    (hback : ∀ l, kept.getLast? = some l → ∀ q ∈ back, q.face = l.face)
    (hsorted : Timely (front ++ back)) (hcumulative : ∀ p ∈ front ++ back, p.temporality ≠ .delta)
    (hl : (upTo t kept).getLast? = some l) :
    interleaved (lineValues (upTo t kept)) =
        interleaved (lineValues (upTo l.timeUnixNano (front ++ back))) ∧
      plainIncrease ((upTo t kept).map (rawInput codec)) =
        plainIncrease ((upTo l.timeUnixNano (front ++ back)).map (rawInput codec)) := by
  constructor
  · refine thinned_same (F := fun l => interleaved (lineValues l))
      (fun l a b c m hb hc => ?_) (fun l a b hb => ?_) hthin hback hsorted hl
    · simp [lineValues, interleaved, value_of_face hb, value_of_face hc, rebounds_third]
    · simp [lineValues, interleaved, value_of_face hb, rebounds_end]
  · rw [plainIncrease_upTo codec fun p hp => hcumulative p (mem_append_left _ (hthin.sublist.mem hp)),
      plainIncrease_upTo codec hcumulative]
    refine thinned_same (F := fun l => lineRises (l.map (rawInput codec)))
      (fun l a b c m hb hc => ?_) (fun l a b hb => ?_) hthin hback hsorted hl
    · simp only [map_append, map_cons]
      exact lineRises_third _ _ _ _ _ (value_of_face hb) (value_of_face hc)
    · simp only [map_append, map_cons, map_nil]
      exact lineRises_end _ _ _ (value_of_face hb)

end window

/-! ### Processes that follow each other -/

/-- The next point of a cumulative counter: no earlier than the points so far, and not below those of
    its own process. -/
def NextPoint (series : RepeatSeries) (a : List RawPoint) (p : RawPoint) : Prop :=
  p.type = .sum ∧ p.temporality = .cumulative ∧ p.startTimeUnixNano ≠ 0 ∧ p.series = series ∧
    (∀ q ∈ a, q.timeUnixNano ≤ p.timeUnixNano) ∧
    ∀ q ∈ a, q.startTimeUnixNano = p.startTimeUnixNano → q.value ≤ p.value

/-- The point is of the process that sent the last one, or of one that is new. -/
def InTurn (a : List RawPoint) (p : RawPoint) : Prop :=
  a.getLast?.map RawPoint.startTimeUnixNano = some p.startTimeUnixNano ∨
    p.startTimeUnixNano ∉ a.map RawPoint.startTimeUnixNano

/-- Each point of a batch meets `P` after the points before it. -/
def EachPoint (P : List RawPoint → RawPoint → Prop) : List RawPoint → List RawPoint → Prop
  | _, [] => True
  | a, p :: rest => P a p ∧ EachPoint P (a ++ [p]) rest

instance (series : RepeatSeries) (a : List RawPoint) (p : RawPoint) :
    Decidable (NextPoint series a p) := by unfold NextPoint; infer_instance

instance (a : List RawPoint) (p : RawPoint) : Decidable (InTurn a p) := by
  unfold InTurn; infer_instance

instance decidableEachPoint (P : List RawPoint → RawPoint → Prop) [∀ a p, Decidable (P a p)] :
    ∀ a b, Decidable (EachPoint P a b)
  | _, [] => isTrue trivial
  | a, p :: rest =>
    have := decidableEachPoint P (a ++ [p]) rest
    inferInstanceAs (Decidable (P a p ∧ EachPoint P (a ++ [p]) rest))

/-- A batch of one counter. -/
def Sends (series : RepeatSeries) (s : RawTable) (b : PointBatch) : Prop :=
  EachPoint (NextPoint series) s.arrived b.points

/-- The processes of the counter follow each other. -/
def Follow (s : RawTable) (b : PointBatch) : Prop := EachPoint InTurn s.arrived b.points

instance (series : RepeatSeries) (s : RawTable) (b : PointBatch) : Decidable (Sends series s b) := by
  unfold Sends; infer_instance

instance (s : RawTable) (b : PointBatch) : Decidable (Follow s b) := by unfold Follow; infer_instance

/-- All points came from one process after another: the newest stream has seen and written them all,
    and no other holds a point. -/
structure Sole (heartbeat : ℕ) (series : RepeatSeries) (s : RepeatStreams) (a k : List RawPoint) :
    Prop where
  tracks : Tracks heartbeat s a k
  own : ∀ p ∈ a, repeatFiltered p = true ∧ p.series = series
  follows : Follows heartbeat a k (a.getLast?.bind fun p => s.streams.lookup p.repeatKey)
  idle : ∀ start st, s.streams.lookup ⟨series, start⟩ = some st →
    a.getLast?.map RawPoint.startTimeUnixNano ≠ some start → st.held = none

section sole
variable {heartbeat : ℕ} {series : RepeatSeries} {s : RepeatStreams} {a k : List RawPoint} {p : RawPoint}

theorem NextPoint.tracked (h : NextPoint series a p) : repeatFiltered p = true :=
  decide_eq_true ⟨h.2.1, h.2.2.1, .inl h.1⟩

/-- A stream that is known has sent a point. -/
theorem Tracks.known_mem (h : Tracks heartbeat s a k) {key : RepeatKey} {st : RepeatStream}
    (hst : s.streams.lookup key = some st) : ∃ q ∈ a, q.repeatKey = key := by
  have hfollows := h.follows key
  rw [hst] at hfollows
  obtain ⟨front, back, l, ha, hthin, hl, -⟩ := hfollows
  have hmem : l ∈ a.filter (RawPoint.ofStream key) := by
    rw [ha]
    exact mem_append_left _ (hthin.sublist.mem (mem_of_getLast? hl))
  obtain ⟨hla, hof⟩ := mem_filter.mp hmem
  rw [RawPoint.ofStream, Bool.and_eq_true, decide_eq_true_eq] at hof
  exact ⟨l, hla, hof.2⟩

/-- What a new stream releases: only the newest stream holds a point. -/
theorem Sole.release_out (h : Sole heartbeat series s a k) {l : RawPoint} {st : RepeatStream}
    (hl : a.getLast? = some l) (hst : s.streams.lookup l.repeatKey = some st) :
    (s.release series).2 = st.held.toList := by
  have hls := (h.own l (mem_of_getLast? hl)).2
  have hkey : l.repeatKey = ⟨series, l.startTimeUnixNano⟩ := by rw [RawPoint.repeatKey, hls]
  have hout : ∀ key, (s.release series).2.filter (RawPoint.ofStream key) = _ := fun key =>
    releaseStarts_out key (h.tracks.nodup series) h.tracks.holdsOwn
  have hall : ∀ q ∈ (s.release series).2, q.ofStream l.repeatKey = true := by
    intro q hq
    have hself := ofStream_self (releaseStarts_tracked h.tracks.holdsOwn q hq)
    have hmem : q ∈ (s.release series).2.filter (RawPoint.ofStream q.repeatKey) :=
      mem_filter.mpr ⟨hq, hself⟩
    rw [hout] at hmem
    split at hmem
    · rename_i hseries
      obtain ⟨st', hst', hheld⟩ := Option.bind_eq_some_iff.mp (Option.mem_toList.mp hmem)
      have hkey' : q.repeatKey = ⟨series, q.repeatKey.start⟩ := by rw [← hseries.1]
      rw [hkey'] at hst'
      by_cases hstart : l.startTimeUnixNano = q.repeatKey.start
      · rw [hkey, hstart, ← hkey']
        exact hself
      · have hnone := h.idle _ st' hst' (by rw [hl]; exact fun he => hstart (Option.some.inj he))
        rw [hnone] at hheld
        cases hheld
    · cases hmem
  have hstart : l.startTimeUnixNano ∈ (s.starts.lookup series).getD [] := by
    rw [h.tracks.starts, ← hkey, hst]
    rfl
  have hfilter := hout l.repeatKey
  rw [filter_eq_self.mpr hall, hkey, if_pos ⟨rfl, hstart⟩, ← hkey, hst] at hfilter
  exact hfilter

/-- A stream other than that of the newest point was there before it. -/
theorem lookup_other {m : Dict RepeatKey RepeatStream} {st st' : RepeatStream} {start : ℕ}
    (h : (m.insert p.repeatKey st).lookup ⟨series, start⟩ = some st')
    (hne : (a ++ [p]).getLast?.map RawPoint.startTimeUnixNano ≠ some start) :
    m.lookup ⟨series, start⟩ = some st' ∧ some p.startTimeUnixNano ≠ some start := by
  rw [List.getLast?_concat, Option.map_some] at hne
  rcases lookup_of_insert h with ⟨heq, -⟩ | ⟨-, hold⟩
  · exact absurd (congrArg some (congrArg RepeatKey.start heq).symm) hne
  · exact ⟨hold, hne⟩

/-- STEP: the next point, in turn. -/
theorem Sole.keep (h : Sole heartbeat series s a k) (hp : NextPoint series a p) (hturn : InTurn a p) :
    Sole heartbeat series (s.keep heartbeat p).1 (a ++ [p]) (k ++ (s.keep heartbeat p).2) := by
  have htracked := hp.tracked
  have hown : ∀ q ∈ a ++ [p], repeatFiltered q = true ∧ q.series = series :=
    forall_mem_append.mpr ⟨h.own, forall_mem_singleton.mpr ⟨htracked, hp.2.2.2.1⟩⟩
  have htracks := h.tracks.keep p
  have hkeep : s.keep heartbeat p = s.track heartbeat p := if_pos htracked
  have hseries : p.series = series := hp.2.2.2.1
  rw [hkeep] at htracks ⊢
  cases hst : s.streams.lookup p.repeatKey with
  | some st =>
    -- a known stream in turn is the newest
    obtain ⟨q, hq, hqkey⟩ := h.tracks.known_mem hst
    have hlast : a.getLast?.map RawPoint.startTimeUnixNano = some p.startTimeUnixNano := by
      refine hturn.resolve_right (not_not.mpr (mem_map.mpr ⟨q, hq, ?_⟩))
      exact congrArg RepeatKey.start hqkey
    obtain ⟨l, hl, hlp⟩ := Option.map_eq_some_iff.mp hlast
    have hlkey : l.repeatKey = p.repeatKey := by
      rw [RawPoint.repeatKey, RawPoint.repeatKey, (h.own l (mem_of_getLast? hl)).2, hseries, hlp]
    have hfollows := h.follows
    rw [hl, Option.bind_some, hlkey, hst] at hfollows
    have hidle : ∀ st', (∀ start st'', (s.streams.insert p.repeatKey st').lookup ⟨series, start⟩ =
        some st'' → (a ++ [p]).getLast?.map RawPoint.startTimeUnixNano ≠ some start →
          st''.held = none) := by
      intro st' start st'' hlook hne
      obtain ⟨hlook, hne⟩ := lookup_other hlook hne
      exact h.idle start st'' hlook (by rw [hlast]; exact hne)
    refine ⟨htracks, hown, ?_, ?_⟩
    · rw [List.getLast?_concat, Option.bind_some, RepeatStreams.track, hst]
      dsimp only
      split
      · rename_i hface
        split
        · rw [AList.lookup_insert]
          exact hfollows.beat hface
        · rename_i ht
          rw [AList.lookup_insert, append_nil]
          exact hfollows.hold hface (not_le.mp ht)
      · rw [AList.lookup_insert]
        exact hfollows.change
    · rw [RepeatStreams.track, hst]
      dsimp only
      split
      · split
        · exact hidle _
        · exact hidle _
      · exact hidle _
  | none =>
    refine ⟨htracks, hown, ?_, ?_⟩
    · rw [List.getLast?_concat, Option.bind_some, RepeatStreams.track, hst]
      dsimp only
      rw [AList.lookup_insert, hseries]
      have hfollows := h.follows
      cases hl : a.getLast? with
      | none =>
        obtain rfl := List.getLast?_eq_none_iff.mp hl
        rw [hl, Option.bind_none] at hfollows
        have hempty : (s.release series).2 = [] := by
          have hstarts : (s.starts.lookup series).getD [] = [] := by
            refine eq_nil_iff_forall_not_mem.mpr fun start hstart => ?_
            obtain ⟨st, hsome⟩ := Option.isSome_iff_exists.mp ((h.tracks.starts _ _).mp hstart)
            obtain ⟨q, hq, -⟩ := h.tracks.known_mem hsome
            cases hq
          rw [RepeatStreams.release, hstarts]
          rfl
        rw [hempty, nil_append]
        exact hfollows.first
      | some l =>
        rw [hl, Option.bind_some] at hfollows
        cases hlst : s.streams.lookup l.repeatKey with
        | none =>
          rw [hlst] at hfollows
          rw [hfollows.1] at hl
          cases hl
        | some st =>
          rw [hlst] at hfollows
          rw [h.release_out hl hlst]
          exact hfollows.change
    · intro start st' hlook hne
      rw [RepeatStreams.track, hst] at hlook
      dsimp only at hlook
      obtain ⟨hlook, -⟩ := lookup_other hlook hne
      -- every stream of the series is released
      have hrel : (s.release p.series).1.streams.lookup ⟨series, start⟩ = _ :=
        releaseStarts_lookup _ (h.tracks.nodup p.series)
      rw [hrel] at hlook
      split at hlook
      · obtain ⟨st, -, rfl⟩ := Option.map_eq_some_iff.mp hlook
        exact released_held st
      · rename_i hnot
        refine absurd ⟨hseries.symm, ?_⟩ hnot
        rw [hseries, h.tracks.starts, hlook]
        rfl

theorem Sole.keepAll : ∀ (recs : List RawPoint) {s : RepeatStreams} {a k : List RawPoint},
    Sole heartbeat series s a k → EachPoint (NextPoint series) a recs → EachPoint InTurn a recs →
    Sole heartbeat series (s.keepAll heartbeat recs).1 (a ++ recs) (k ++ (s.keepAll heartbeat recs).2)
  | [], s, a, k, h, _, _ => by
    rw [append_nil]
    exact (append_nil k).symm ▸ h
  | p :: recs, s, a, k, h, hnext, hturn => by
    have hrest := Sole.keepAll recs (h.keep hnext.1 hturn.1) hnext.2 hturn.2
    rw [append_assoc, append_assoc] at hrest
    exact hrest

theorem eachPoint_timely : ∀ {recs a : List RawPoint}, Timely a →
    EachPoint (NextPoint series) a recs → Timely (a ++ recs)
  | [], a, h, _ => by rwa [append_nil]
  | p :: recs, a, h, hnext => by
    have hp : Timely (a ++ [p]) :=
      pairwise_append.mpr ⟨h, pairwise_singleton _ _, fun q hq r hr => by
        rw [mem_singleton.mp hr]
        exact hnext.1.2.2.2.2.1 q hq⟩
    have hrest := eachPoint_timely hp hnext.2
    rwa [append_assoc] at hrest

end sole

/-! ### Over any batches -/

theorem eachPoint_append {P : List RawPoint → RawPoint → Prop} : ∀ {x a y : List RawPoint},
    EachPoint P a x → EachPoint P (a ++ x) y → EachPoint P a (x ++ y)
  | [], a, y, _, hy => by rwa [append_nil] at hy
  | p :: x, a, y, hx, hy =>
    ⟨hx.1, eachPoint_append hx.2 (by rwa [append_assoc, singleton_append])⟩

/-- RUN: what the points of every batch meet, all points that came meet. -/
theorem eachPoint_run {P : List RawPoint → RawPoint → Prop} {batches : List PointBatch} {s s' : RawTable}
    (hempty : s.arrived = [])
    (hmeets : Meets RawTable.step (fun s b => EachPoint P s.arrived b.points) s batches)
    (hrun : run RawTable.step s batches = some s') : EachPoint P [] s'.arrived := by
  refine inv_run_meets (I := fun s => EachPoint P [] s.arrived) (fun m b m' hm hb hstep => ?_)
    (show EachPoint P [] s.arrived by rw [hempty]; trivial) hmeets hrun
  rw [RawTable.step] at hstep
  split at hstep
  · cases hstep
  · obtain rfl := Option.some.inj hstep
    exact eachPoint_append hm hb

theorem eachPoint_mem {series : RepeatSeries} : ∀ {x a : List RawPoint},
    EachPoint (NextPoint series) a x → ∀ p ∈ x, p.temporality ≠ .delta
  | [], _, _ => forall_mem_nil _
  | p :: x, a, h => by
    refine forall_mem_cons.mpr ⟨fun hdelta => ?_, eachPoint_mem h.2⟩
    rw [h.1.2.1] at hdelta
    cases hdelta

theorem sole_empty (heartbeat : ℕ) (series : RepeatSeries) : Sole heartbeat series {} [] [] where
  tracks := tracks_empty heartbeat
  own := forall_mem_nil _
  follows := ⟨rfl, rfl⟩
  idle _ _ h := by cases h

/-- Everything is left. -/
theorem thinned_all {near : RawPoint → RawPoint → Prop} (l : List RawPoint) :
    Thinned RawPoint.face near l l := by
  induction l using List.reverseRecOn with
  | nil => exact .nil
  | append_singleton l p ih => exact ih.keep

/-- What is left of processes that follow each other, and the repeats of its last point behind. -/
theorem kept_thinned {heartbeat : ℤ} {series : RepeatSeries} {batches : List PointBatch} {s : RawTable}
    (hrun : run RawTable.step { filter := newMetricRepeatFilter heartbeat } batches = some s)
    (hnext : EachPoint (NextPoint series) [] s.arrived) (hturn : EachPoint InTurn [] s.arrived) :
    ∃ front back, s.arrived = front ++ back ∧
      Thinned RawPoint.face (Near heartbeat.toNat) front s.kept ∧
      ∀ l, s.kept.getLast? = some l → ∀ q ∈ back, q.face = l.face := by
  rcases (run_whole hrun).2 with ⟨-, hkept⟩ | ⟨-, tracked, hall⟩
  · rw [hkept]
    exact ⟨s.arrived, [], (append_nil _).symm, thinned_all _, fun _ _ => forall_mem_nil _⟩
  · have hsole := Sole.keepAll s.arrived (sole_empty heartbeat.toNat series) hnext hturn
    rw [hall, nil_append, nil_append] at hsole
    have hfollows := hsole.follows
    cases ho : s.arrived.getLast?.bind fun p => tracked.streams.lookup p.repeatKey with
    | none =>
      rw [ho] at hfollows
      obtain ⟨harrived, hkept⟩ := hfollows
      rw [harrived, show s.kept = [] from hkept]
      exact ⟨[], [], rfl, .nil, fun _ _ => forall_mem_nil _⟩
    | some st =>
      rw [ho] at hfollows
      obtain ⟨front, back, l, ha, hthin, hl, -, -, hback, -⟩ := hfollows
      refine ⟨front, back, ha, hthin, fun l' hl' q hq => ?_⟩
      obtain rfl := Option.some.inj (hl.symm.trans hl')
      exact (hback q hq).1

/-- A counter that does not look interleaved is drawn by the plain derivation. -/
theorem deriveRate_raw (codec : Codec) {t : ℕ} (h : ∀ p ∈ points, p.temporality ≠ .delta)
    (hplain : interleaved (lineValues (upTo t points)) = false) :
    deriveRate ((upTo t points).map (rawInput codec)) =
      plainRates none ((upTo t points).map (rawInput codec)) := by
  have hvalues : cumulativeValues ((upTo t points).map (rawInput codec)) =
      some (lineValues (upTo t points)) := by
    rw [cumulativeValues_eq fun q hq => ?_, map_map]
    · rfl
    · obtain ⟨p, hp, rfl⟩ := mem_map.mp hq
      exact decide_eq_false fun hd => h p (upTo_mem hp) hd.2
  simp only [deriveRate, hvalues, hplain, Bool.false_eq_true, if_false]

/-- CORRECT: over any batches of one counter whose processes follow each other, and for any time up to
    which the points that came do not look interleaved, what the filter left up to that time and all
    points up to the last of those are both drawn by the plain derivation, and increase alike. -/
theorem kept_increase {heartbeat : ℤ} {series : RepeatSeries} {batches : List PointBatch} {s : RawTable}
    (codec : Codec)
    (hrun : run RawTable.step { filter := newMetricRepeatFilter heartbeat } batches = some s)
    (hsends : Meets RawTable.step (Sends series) { filter := newMetricRepeatFilter heartbeat } batches)
    (hfollow : Meets RawTable.step Follow { filter := newMetricRepeatFilter heartbeat } batches)
    {t : ℕ} (hplain : interleaved (lineValues (upTo t s.arrived)) = false)
    {l : RawPoint} (hl : (upTo t s.kept).getLast? = some l) :
    deriveRate ((upTo t s.kept).map (rawInput codec)) =
        plainRates none ((upTo t s.kept).map (rawInput codec)) ∧
      deriveRate ((upTo l.timeUnixNano s.arrived).map (rawInput codec)) =
        plainRates none ((upTo l.timeUnixNano s.arrived).map (rawInput codec)) ∧
      totalIncrease ((upTo t s.kept).map (rawInput codec)) =
        totalIncrease ((upTo l.timeUnixNano s.arrived).map (rawInput codec)) := by
  have hnext : EachPoint (NextPoint series) [] s.arrived := eachPoint_run rfl hsends hrun
  have hturn : EachPoint InTurn [] s.arrived := eachPoint_run rfl hfollow hrun
  have hsorted : Timely s.arrived := by
    have := eachPoint_timely List.Pairwise.nil hnext
    rwa [nil_append] at this
  have hdelta := eachPoint_mem hnext
  -- what does not look interleaved up to `t` did not up to the last point left
  have hall : interleaved (lineValues (upTo l.timeUnixNano s.arrived)) = false := by
    have hlt : l.timeUnixNano ≤ t := of_decide_eq_true (mem_filter.mp (mem_of_getLast? hl)).2
    obtain ⟨later, hlater⟩ := upTo_before hsorted hlt
    rw [hlater, lineValues, map_append, interleaved, decide_eq_false_iff_not, not_le] at hplain
    rw [interleaved, decide_eq_false_iff_not, not_le]
    exact (rebounds_le_append _ _).trans_lt hplain
  obtain ⟨front, back, ha, hthin, hback⟩ := kept_thinned hrun hnext hturn
  rw [ha] at hsorted hdelta hall ⊢
  obtain ⟨hflag, hincrease⟩ := thinned_increase codec hthin hback hsorted hdelta hl
  have hkept : ∀ p ∈ s.kept, p.temporality ≠ .delta := fun p hp =>
    hdelta p (mem_append_left _ (hthin.sublist.mem hp))
  have hleft := deriveRate_raw codec hkept (hflag.trans hall)
  have harrived := deriveRate_raw codec hdelta hall
  refine ⟨hleft, harrived, ?_⟩
  rw [totalIncrease, totalIncrease, hleft, harrived]
  exact hincrease

/-- Two processes that follow each other; the repeats of each are left out but for the last. -/
def followBatches : List PointBatch :=
  [⟨[requestPoint 1 10 5, requestPoint 1 20 5, requestPoint 1 30 5], 1000⟩,
    ⟨[requestPoint 2 40 1, requestPoint 2 50 1, requestPoint 2 60 1, requestPoint 2 70 4], 1100⟩]

def requestSeries : RepeatSeries := ⟨1, "requests", ""⟩

/-- The series grows by 1 and by 3. -/
theorem kept_increase_follow :
    ∃ s, run RawTable.step { filter := newMetricRepeatFilter 100 } followBatches = some s ∧
      s.kept = [requestPoint 1 10 5, requestPoint 1 30 5, requestPoint 2 40 1, requestPoint 2 60 1,
        requestPoint 2 70 4] ∧
      interleaved (lineValues (upTo 70 s.arrived)) = false ∧
      ∀ codec, totalIncrease ((upTo 70 s.kept).map (rawInput codec)) =
        totalIncrease ((upTo 70 s.arrived).map (rawInput codec)) := by
  have hrun : (run RawTable.step { filter := newMetricRepeatFilter 100 } followBatches).any
      (fun s => decide (s.kept = [requestPoint 1 10 5, requestPoint 1 30 5, requestPoint 2 40 1,
        requestPoint 2 60 1, requestPoint 2 70 4] ∧
        interleaved (lineValues (upTo 70 s.arrived)) = false)) = true := by decide +kernel
  obtain ⟨s, hs, hpoints⟩ := (Option.any_eq_true _ _).mp hrun
  obtain ⟨hkept, hplain⟩ := of_decide_eq_true hpoints
  have hl : (upTo 70 s.kept).getLast? = some (requestPoint 2 70 4) := by
    rw [hkept]
    decide +kernel
  have hmeets : Meets RawTable.step (Sends requestSeries) { filter := newMetricRepeatFilter 100 }
      followBatches ∧ Meets RawTable.step Follow { filter := newMetricRepeatFilter 100 }
      followBatches := by decide +kernel
  exact ⟨s, hs, hkept, hplain, fun codec =>
    (kept_increase codec hs hmeets.1 hmeets.2 hplain hl).2.2⟩

/-- Two processes at once; the first grows by one. -/
def overlapBatches : List PointBatch :=
  [⟨[requestPoint 1 10 10, requestPoint 2 20 5, requestPoint 1 30 10, requestPoint 2 40 5,
    requestPoint 1 50 11], 1000⟩]

theorem rawInput_request (codec : Codec) (start time : ℕ) (value : ℚ) :
    rawInput codec (requestPoint start time value) = ⟨time, value, 0, ∅, false, 0⟩ := rfl

/-- The second point of the second process is held, so the series no longer looks interleaved and the
    drop to it counts as a restart. Drawn by the plain derivation on both sides, the totals differ
    too. -/
theorem overlap_increase_differs :
    Meets RawTable.step (Sends requestSeries) { filter := newMetricRepeatFilter 100 } overlapBatches ∧
    ∃ s, run RawTable.step { filter := newMetricRepeatFilter 100 } overlapBatches = some s ∧
      (upTo 50 s.kept).getLast? = some (requestPoint 1 50 11) ∧
      ∀ codec, totalIncrease ((upTo 50 s.kept).map (rawInput codec)) = 11 ∧
        totalIncrease ((upTo 50 s.arrived).map (rawInput codec)) = 1 / 2 ∧
        plainIncrease ((upTo 50 s.kept).map (rawInput codec)) = 11 ∧
        plainIncrease ((upTo 50 s.arrived).map (rawInput codec)) = 21 := by
  refine ⟨by decide +kernel, ?_⟩
  have hrun : (run RawTable.step { filter := newMetricRepeatFilter 100 } overlapBatches).any
      (fun s => decide (upTo 50 s.kept = [requestPoint 1 10 10, requestPoint 2 20 5,
          requestPoint 1 30 10, requestPoint 1 50 11] ∧
        upTo 50 s.arrived = [requestPoint 1 10 10, requestPoint 2 20 5, requestPoint 1 30 10,
          requestPoint 2 40 5, requestPoint 1 50 11])) = true := by decide +kernel
  obtain ⟨s, hs, hpoints⟩ := (Option.any_eq_true _ _).mp hrun
  obtain ⟨hkept, harrived⟩ := of_decide_eq_true hpoints
  refine ⟨s, hs, by rw [hkept]; rfl, fun codec => ?_⟩
  rw [hkept, harrived]
  simp only [map_cons, map_nil, rawInput_request]
  decide +kernel

end Spanbarn.Metrics
