import Mathlib.Algebra.Order.BigOperators.Group.List
import Mathlib.Algebra.Order.Ring.Rat
import Spanbarn.Metrics.Interleaved
import Spanbarn.Schemes.Chains

/-! The chains of `chainPrevious`.

    Each value goes to the chain with the largest end not above it, so the ends fall from chain to chain
    and the row of a chain's end, the end before it when it was put there, and so on, falls as well:
    there are as many chains as the longest fall has values, and no split into rising parts has fewer.

        values    5   3   4   1   2
        ends      5   5   5   5   5
                      3   4   4   4
                              1   2          5 3 1, three chains

    `startChain` moves links from one value to another and leaves what they lead to as it was, so the
    ends that the loop keeps are the ends of the chains. -/

namespace Spanbarn.Metrics
open List Spanbarn.Schemes

/-- The link of an index. -/
def linkAt (prev : List (Option ℕ)) (i : ℕ) : Option ℕ := prev.getD i none

def valueAt {V : Type*} [Zero V] (values : List V) (i : ℕ) : V := values.getD i 0

theorem linkAt_set {prev : List (Option ℕ)} {i : ℕ} (hi : i < prev.length) (o : Option ℕ) :
    linkAt (prev.set i o) = Function.update (linkAt prev) i o := by
  funext j
  rw [linkAt, getD_set]
  by_cases hij : i = j
  · subst hij
    rw [if_pos ⟨rfl, hi⟩, Function.update_self]
  · rw [if_neg fun h => hij h.1, Function.update_of_ne (Ne.symm hij)]
    rfl

section split
variable {V : Type*} [AddGroup V] [LinearOrder V] {values : List V} {n : ℕ}

/-! ### A value below every chain -/

/-- The links while `startChain` has still to place the value at `i`: what they lead to stays `led`. -/
structure Placing (values : List V) (n : ℕ) (led : ℕ → Prop) (prev : List (Option ℕ)) (i : ℕ) :
    Prop where
  index : i < n
  length : n ≤ prev.length
  links : Links (valueAt values) ((Finset.range n).erase i) (linkAt prev)
  led : ∀ p, (∃ j ∈ (Finset.range n).erase i, linkAt prev j = some p) ↔ led p

/-- STEP: `i` takes the link of `j`, and `j` is placed next. -/
theorem Placing.displace {led : ℕ → Prop} {prev : List (Option ℕ)} {i j : ℕ}
    (h : Placing values n led prev i) (hj : widestStepOver values prev i = some j) :
    Placing values n led (prev.set i (prev.getD j none)) j := by
  obtain ⟨hji, p, hp, hle⟩ := widestStepOver_spec hj
  have hi := h.index.trans_le h.length
  have hjn : j ∈ Finset.range n := Finset.mem_range.mpr (hji.trans h.index)
  have hjrest := Finset.mem_erase.mpr ⟨hji.ne, hjn⟩
  have hpj := h.links.below j hjrest p hp
  have hmoved := h.links.move hjn hji.ne hp (hpj.trans hji) hle
  rw [hp]
  refine ⟨hji.trans h.index, h.length.trans length_set.ge, ?_, fun q => .trans ?_ (h.led q)⟩
  · rwa [linkAt_set hi]
  rw [linkAt_set hi]
  constructor
  · rintro ⟨k, hk, hkq⟩
    by_cases hki : k = i
    · rw [hki, Function.update_self] at hkq
      exact ⟨j, hjrest, hp.trans hkq⟩
    · rw [Function.update_of_ne hki] at hkq
      exact ⟨k, Finset.mem_erase.mpr ⟨hki, (Finset.mem_erase.mp hk).2⟩, hkq⟩
  · rintro ⟨k, hk, hkq⟩
    obtain ⟨hki, hkn⟩ := Finset.mem_erase.mp hk
    by_cases hkj : k = j
    · refine ⟨i, Finset.mem_erase.mpr ⟨hji.ne', Finset.mem_range.mpr h.index⟩, ?_⟩
      rw [Function.update_self, ← hkq, hkj]
      exact hp.symm
    · refine ⟨k, Finset.mem_erase.mpr ⟨hkj, hkn⟩, ?_⟩
      rw [Function.update_of_ne hki]
      exact hkq

/-- The last value displaced starts a chain. -/
theorem Placing.placed {led : ℕ → Prop} {prev : List (Option ℕ)} {i : ℕ}
    (h : Placing values n led prev i) :
    Links (valueAt values) (Finset.range n) (linkAt (prev.set i none)) ∧
      ∀ p, (∃ j ∈ Finset.range n, linkAt (prev.set i none) j = some p) ↔ led p := by
  rw [linkAt_set (h.index.trans_le h.length)]
  refine ⟨h.links.fill (fun p hp => by cases hp) (fun p hp => by cases hp), fun p => .trans ?_ (h.led p)⟩
  constructor
  · rintro ⟨j, hjn, hjp⟩
    by_cases hji : j = i
    · rw [hji, Function.update_self] at hjp
      cases hjp
    · rw [Function.update_of_ne hji] at hjp
      exact ⟨j, Finset.mem_erase.mpr ⟨hji, hjn⟩, hjp⟩
  · rintro ⟨j, hjn, hjp⟩
    obtain ⟨hji, hjn⟩ := Finset.mem_erase.mp hjn
    exact ⟨j, hjn, by rw [Function.update_of_ne hji]; exact hjp⟩

/-- RUN: the links after `startChain`, and what they lead to. -/
theorem startChain_links {prev : List (Option ℕ)} {i : ℕ} (hi : i < n) (hlen : n ≤ prev.length)
    (h : Links (valueAt values) ((Finset.range n).erase i) (linkAt prev)) :
    Links (valueAt values) (Finset.range n) (linkAt (startChain values prev i)) ∧
      ∀ p, (∃ j ∈ Finset.range n, linkAt (startChain values prev i) j = some p) ↔
        ∃ j ∈ (Finset.range n).erase i, linkAt prev j = some p := by
  have hfirst : Placing values n (fun p => ∃ j ∈ (Finset.range n).erase i, linkAt prev j = some p)
      prev i := ⟨hi, hlen, h, fun _ => Iff.rfl⟩
  obtain ⟨prev', i', hlast, hset⟩ := startChain_inv values
    (fun _ _ _ hplacing hj => hplacing.displace hj) hfirst
  rw [hset]
  exact hlast.placed

/-! ### The loop -/

/-- The links of the first `n` values, and the ends of their chains, falling. -/
structure Tops (values : List V) (n : ℕ) (st : ChainState) : Prop where
  length : st.1.length = values.length
  links : Links (valueAt values) (Finset.range n) (linkAt st.1)
  ends : ∀ i, i ∈ st.2 ↔ i ∈ ends (Finset.range n) (linkAt st.1)
  falls : st.2.Pairwise fun a b => valueAt values b < valueAt values a
  rows : Rows (valueAt values) n 0 st.2

theorem range_erase (n : ℕ) : (Finset.range (n + 1)).erase n = Finset.range n := by
  rw [Finset.range_add_one, Finset.erase_insert Finset.notMem_range_self]

/-- Nothing leads to a value that is still to come. -/
theorem Tops.not_led {st : ChainState} (h : Tops values n st) :
    ∀ j ∈ Finset.range n, linkAt st.1 j ≠ some n := by
  intro j hj hjn
  have hnj := h.links.below j hj n hjn
  have hjn := Finset.mem_range.mp hj
  omega

/-- The ends once the value at `n` is placed: that value, and the ends no step leads to now. -/
theorem Tops.ends_next {st : ChainState} (h : Tops values n st) {prev : List (Option ℕ)} {led : ℕ → Prop}
    (hled : ∀ i, (∀ j ∈ Finset.range (n + 1), linkAt prev j ≠ some i) ↔
      ¬led i ∧ ∀ j ∈ Finset.range n, linkAt st.1 j ≠ some i) (hn : ¬led n) (i : ℕ) :
    i ∈ Schemes.ends (Finset.range (n + 1)) (linkAt prev) ↔ i = n ∨ i ∈ st.2 ∧ ¬led i := by
  rw [h.ends, Schemes.ends, Schemes.ends, Finset.mem_filter, Finset.mem_filter, hled, Finset.mem_range,
    Finset.mem_range]
  constructor
  · rintro ⟨hi, hnot, hall⟩
    rcases Nat.lt_succ_iff_lt_or_eq.mp hi with hlt | rfl
    · exact .inr ⟨⟨hlt, hall⟩, hnot⟩
    · exact .inl rfl
  · rintro (rfl | ⟨⟨hi, hall⟩, hnot⟩)
    · exact ⟨i.lt_succ_self, hn, h.not_led⟩
    · exact ⟨hi.trans n.lt_succ_self, hnot, hall⟩

/-- STEP: a value below every end. -/
theorem Tops.start {st : ChainState} (h : Tops values n st) (hn : n < values.length)
    (hbest : bestChain values st.2 (values.getD n 0) = none) :
    Tops values (n + 1) (startChain values st.1 n, st.2 ++ [n]) := by
  have hbelow : ∀ a ∈ st.2, valueAt values n < valueAt values a := by
    intro a ha
    by_contra hle
    obtain ⟨c, hc, -⟩ := bestChain_le ha (not_lt.mp hle)
    rw [valueAt, hbest] at hc
    cases hc
  have hlinks := h.links
  rw [← range_erase] at hlinks
  obtain ⟨hlinks, himage⟩ := startChain_links (Nat.lt_succ_self n) (h.length ▸ hn) hlinks
  refine ⟨(length_startChain _ _ _).trans h.length, hlinks, fun i => ?_, ?_, ?_⟩
  · have hled : ∀ i, (∀ j ∈ Finset.range (n + 1), linkAt (startChain values st.1 n) j ≠ some i) ↔
        ¬False ∧ ∀ j ∈ Finset.range n, linkAt st.1 j ≠ some i := by
      intro i
      have hnot := not_congr (himage i)
      rw [range_erase] at hnot
      push Not at hnot
      rw [not_false_eq_true, true_and]
      exact hnot
    rw [h.ends_next hled id, not_false_eq_true, and_true, mem_append, mem_singleton, or_comm]
  · refine pairwise_append.mpr ⟨h.falls, pairwise_singleton _ _, fun a ha b hb => ?_⟩
    rw [mem_singleton.mp hb]
    exact hbelow a ha
  · refine rows_append.mpr ⟨rows_mono n.le_succ h.rows, ?_, trivial⟩
    rw [Nat.zero_add]
    exact rows_next h.rows hbelow

/-- An entry of a list without repetitions is replaced. -/
theorem mem_replaced {front back : List ℕ} {x : ℕ} (hx : (front ++ x :: back).Nodup) (y i : ℕ) :
    i ∈ front ++ y :: back ↔ i = y ∨ i ∈ front ++ x :: back ∧ ¬x = i := by
  have hfront : x ∉ front := fun h => (nodup_append.mp hx).2.2 x h x mem_cons_self rfl
  have hback : x ∉ back := (nodup_cons.mp (nodup_append.mp hx).2.1).1
  simp only [mem_append, mem_cons]
  constructor
  · rintro (hi | rfl | hi)
    · exact .inr ⟨.inl hi, fun h => hfront (h ▸ hi)⟩
    · exact .inl rfl
    · exact .inr ⟨.inr (.inr hi), fun h => hback (h ▸ hi)⟩
  · rintro (rfl | ⟨hi | rfl | hi, hne⟩)
    · exact .inr (.inl rfl)
    · exact .inl hi
    · exact absurd rfl hne
    · exact .inr (.inr hi)

/-- STEP: a value that goes on with a chain. -/
theorem Tops.join {st : ChainState} (h : Tops values n st) (hn : n < values.length) {c : ℕ}
    (hbest : bestChain values st.2 (values.getD n 0) = some c) :
    Tops values (n + 1) (st.1.set n (some (st.2.getD c 0)), st.2.set c n) := by
  obtain ⟨hc, hx⟩ := bestChain_spec hbest
  have hmax : ∀ a ∈ st.2, valueAt values a ≤ valueAt values n →
      valueAt values a ≤ valueAt values (st.2.getD c 0) := by
    intro a ha hle
    obtain ⟨c', hc', hle'⟩ := bestChain_le ha hle
    obtain rfl := Option.some.inj (hbest.symm.trans hc')
    exact hle'
  obtain ⟨front, x, back, hlasts, hset, hgetD⟩ : ∃ front x back, st.2 = front ++ x :: back ∧
      st.2.set c n = front ++ n :: back ∧ st.2.getD c 0 = x := by
    refine ⟨st.2.take c, st.2[c], st.2.drop (c + 1), ?_, ?_, ?_⟩
    · rw [cons_getElem_drop_succ, take_append_drop]
    · exact set_eq_take_append_cons_drop.trans (if_pos hc)
    · exact getD_eq_getElem _ _ hc
  have hxn : valueAt values x ≤ valueAt values n := hgetD ▸ hx
  rw [hgetD] at hmax ⊢
  rw [hset]
  have hfalls := h.falls
  have hrows := h.rows
  rw [hlasts] at hfalls hrows hmax
  obtain ⟨hfront, hback, hbetween⟩ := pairwise_append.mp hfalls
  obtain ⟨hxback, hback⟩ := pairwise_cons.mp hback
  have habove : ∀ a ∈ front, valueAt values n < valueAt values a := by
    intro a ha
    by_contra hle
    have hax := hmax a (mem_append_left _ ha) (not_lt.mp hle)
    exact absurd (hbetween a ha x mem_cons_self) (not_lt.mpr hax)
  have hxend := (h.ends x).mp (hlasts ▸ mem_append_right _ mem_cons_self)
  obtain ⟨hxrange, hxled⟩ := Finset.mem_filter.mp hxend
  have hxlt := Finset.mem_range.mp hxrange
  have hat : n < st.1.length := h.length ▸ hn
  have hlinks := h.links
  rw [← range_erase] at hlinks
  refine ⟨length_set.trans h.length, ?_, fun i => ?_, ?_, ?_⟩
  · rw [linkAt_set hat]
    refine hlinks.fill (fun p hp => Option.some.inj hp ▸ ⟨hxlt, hxn⟩) fun p hp j hj => ?_
    rw [range_erase] at hj
    exact Option.some.inj hp ▸ hxled j hj
  · have hled : ∀ i, (∀ j ∈ Finset.range (n + 1), linkAt (st.1.set n (some x)) j ≠ some i) ↔
        ¬x = i ∧ ∀ j ∈ Finset.range n, linkAt st.1 j ≠ some i := by
      intro i
      rw [linkAt_set hat, Finset.range_add_one, Finset.forall_mem_insert, Function.update_self, Ne,
        Option.some.injEq]
      refine and_congr_right fun _ => forall₂_congr fun j hj => ?_
      rw [Function.update_of_ne (Finset.mem_range.mp hj).ne]
    have hnodup : (front ++ x :: back).Nodup := hfalls.imp fun hlt heq => hlt.ne (congrArg _ heq.symm)
    rw [h.ends_next hled hxlt.ne, hlasts]
    exact mem_replaced hnodup n i
  · refine pairwise_append.mpr ⟨hfront, pairwise_cons.mpr ⟨?_, hback⟩, ?_⟩
    · intro b hb
      exact (hxback b hb).trans_le hxn
    · intro a ha b hb
      rcases mem_cons.mp hb with rfl | hb
      · exact habove a ha
      · exact hbetween a ha b (mem_cons_of_mem _ hb)
  · obtain ⟨hfrontRows, -, hbackRows⟩ := rows_append.mp hrows
    refine rows_append.mpr ⟨rows_mono n.le_succ hfrontRows, ?_, rows_mono n.le_succ hbackRows⟩
    rw [Nat.zero_add]
    exact rows_next hfrontRows habove

/-- RUN: the loop over the first `n` values. -/
theorem tops_chains (values : List V) :
    ∀ {n : ℕ}, n ≤ values.length → Tops values n (chains values n) := by
  intro n
  induction n with
  | zero =>
    intro _
    exact ⟨length_replicate, ⟨by simp, by simp, by simp⟩, by simp [chains, Schemes.ends],
      List.Pairwise.nil, trivial⟩
  | succ n ih =>
    intro hn
    have htops := ih (Nat.le_of_succ_le hn)
    rw [chains_succ, chainStep]
    cases hbest : bestChain values (chains values n).2 (values.getD n 0) with
    | none => exact htops.start hn hbest
    | some c => exact htops.join hn hbest

/-- The chains of a series. -/
def chainFirsts (values : List V) : Finset ℕ :=
  firsts (Finset.range values.length) (linkAt (chainPrevious values))

/-- Their last values. -/
def chainEnds (values : List V) : Finset ℕ :=
  ends (Finset.range values.length) (linkAt (chainPrevious values))

/-- As many chains as the loop keeps ends. -/
theorem card_chainFirsts (values : List V) :
    (chainFirsts values).card = (chains values values.length).2.length := by
  have htops := tops_chains values le_rfl
  have hnodup : (chains values values.length).2.Nodup :=
    htops.falls.imp fun {a b} hlt (heq : a = b) => absurd hlt (heq ▸ lt_irrefl _)
  rw [chainFirsts, chainPrevious, ← htops.links.card_ends, ← toFinset_card_of_nodup hnodup]
  congr 1
  ext i
  rw [mem_toFinset, htops.ends]

end split

/-- CORRECT: the loop of `startChain` exits, and any number of rounds above the index reaches its links.
    After every value, and so in the end, what comes before a value is an earlier one that is not above
    it and comes before no other. There are as few chains as any split into rising parts has labels, and
    as many as the longest fall has values. The steps add up to the last values less the first, and are
    not below zero. -/
theorem chainPrevious_splits {V : Type*} [AddCommGroup V] [LinearOrder V] [IsOrderedAddMonoid V]
    (values : List V) :
    (∀ prev i rounds, i < rounds →
      loop (displace values) rounds (prev, i) = some (startChain values prev i)) ∧
    (∀ n ≤ values.length, Links (valueAt values) (Finset.range n) (linkAt (chains values n).1)) ∧
    Links (valueAt values) (Finset.range values.length) (linkAt (chainPrevious values)) ∧
    IsLeast {k | ∃ label, Splitting (valueAt values) values.length label ∧
      ((Finset.range values.length).image label).card = k} (chainFirsts values).card ∧
    IsGreatest {k | ∃ l, Falling (valueAt values) values.length l ∧ l.length = k}
      (chainFirsts values).card ∧
    chainTotal values =
      ∑ i ∈ chainEnds values, valueAt values i - ∑ i ∈ chainFirsts values, valueAt values i ∧
    0 ≤ chainTotal values := by
  have htops := tops_chains values le_rfl
  have hlinks : Links (valueAt values) (Finset.range values.length) (linkAt (chainPrevious values)) :=
    htops.links
  obtain ⟨fall, hfall, hlength⟩ := rows_longest htops.rows
  rw [← card_chainFirsts] at hlength
  have hroot : ((Finset.range values.length).image (root (linkAt (chainPrevious values)))).card =
      (chainFirsts values).card := congrArg Finset.card hlinks.image_root
  refine ⟨loop_displace values, fun n hn => (tops_chains values hn).links, hlinks,
    ⟨⟨_, hlinks.splitting, hroot⟩, ?_⟩, ⟨⟨fall, hfall, hlength⟩, ?_⟩, ?_, ?_⟩
  · rintro k ⟨label, hsplit, rfl⟩
    rw [← hlength]
    exact falling_le hsplit hfall
  · rintro k ⟨l, hl, rfl⟩
    rw [← hroot]
    exact falling_le hlinks.splitting hl
  · rw [chainEnds, chainFirsts, ← hlinks.sum_steps, chainTotal, chainSteps_eq]
    rfl
  · exact sum_nonneg (chainSteps_nonneg values)

/-- A value below both chains, which takes the place of the step 2 → 9. -/
theorem chainPrevious_splits_rewired :
    chainPrevious [2, 9, 4, (10 : ℚ)] = [none, none, some 0, some 1] ∧
      IsGreatest {k | ∃ l, Falling (valueAt [2, 9, 4, (10 : ℚ)]) 4 l ∧ l.length = k}
        (chainFirsts [2, 9, 4, (10 : ℚ)]).card :=
  ⟨by decide +kernel, (chainPrevious_splits [2, 9, 4, (10 : ℚ)]).2.2.2.2.1⟩

end Spanbarn.Metrics
