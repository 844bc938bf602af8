import Mathlib.Algebra.BigOperators.Group.List.Basic
import Mathlib.Algebra.Order.Group.Defs
import Mathlib.Algebra.Order.Ring.Int
import Mathlib.Data.List.GetD
import Mathlib.Data.List.Induction
import Mathlib.Order.Defs.LinearOrder
import Spanbarn.Schemes.Loop

/-! Counters of several producers under one label set.

    Pods that share a label set leave their running totals alternating on one series: 11, 1, 11, 1. Such
    a run falls and climbs back to where it was. `chainPrevious` splits it into one rising chain per
    producer and gives, for each value, the index of the value before it on its chain.

        values   40  8000   41  8003   42
        chains   40 ─────── 41 ─────── 42
                     8000 ───── 8003                  -/

namespace Spanbarn.Metrics
open List Spanbarn.Schemes

variable {V : Type*} [AddGroup V] [LinearOrder V]

/-- How many rebounds make a series interleaved. -/
def minRebounds : ℕ := 2

/-- How often a value falls and the next one is back at or above where it fell from. -/
def rebounds : List V → ℕ
  | a :: b :: c :: rest => (if b < a ∧ a ≤ c then 1 else 0) + rebounds (b :: c :: rest)
  | _ => 0

def interleaved (values : List V) : Bool := decide (minRebounds ≤ rebounds values)

/-- The body of `widestStepOver` for a value `v`: the step to `j`, where it rises past `v` and is wider
    than the widest so far. -/
def widen (values : List V) (prev : List (Option ℕ)) (v : V) (best : Option ℕ × V) (j : ℕ) :
    Option ℕ × V :=
  match prev.getD j none with
  | none => best
  | some p =>
    if v < values.getD p 0 ∨ values.getD j 0 < v then best
    else if best.2 < values.getD j 0 - values.getD p 0 then
      (some j, values.getD j 0 - values.getD p 0)
    else best

/-- The largest step before `i` that rises past the value at `i`. -/
def widestStepOver (values : List V) (prev : List (Option ℕ)) (i : ℕ) : Option ℕ :=
  ((List.range i).foldl (widen values prev (values.getD i 0)) (none, 0)).1

/-- One round of `startChain`: the value at `i` takes the place of the widest step that jumped over it,
    which is placed next, or starts a chain. -/
def displace (values : List V) (s : List (Option ℕ) × ℕ) :
    List (Option ℕ) × ℕ ⊕ List (Option ℕ) :=
  match widestStepOver values s.1 s.2 with
  | none => .inr (s.1.set s.2 none)
  | some j => .inl (s.1.set s.2 (s.1.getD j none), j)

/-- A value below every chain. The index falls with each round, so `i + 1` rounds are enough. -/
def startChain (values : List V) (prev : List (Option ℕ)) (i : ℕ) : List (Option ℕ) :=
  (loop (displace values) (i + 1) (prev, i)).getD prev

/-- The body of `bestChain`: a chain with its last value, against the best so far. -/
def nearer (values : List V) (lasts : List ℕ) (v : V) (best : Option ℕ) (lc : ℕ × ℕ) : Option ℕ :=
  if values.getD lc.1 0 ≤ v ∧
      (best.elim true fun b => decide (values.getD (lasts.getD b 0) 0 < values.getD lc.1 0)) then
    some lc.2
  else best

/-- The chain whose last value is the largest one not above `v`. -/
def bestChain (values : List V) (lasts : List ℕ) (v : V) : Option ℕ :=
  lasts.zipIdx.foldl (nearer values lasts v) none

/-- The index before each value on its chain, and the ends of the chains. -/
abbrev ChainState := List (Option ℕ) × List ℕ

/-- One round of `chainPrevious`. -/
def chainStep (values : List V) (st : ChainState) (i : ℕ) : ChainState :=
  match bestChain values st.2 (values.getD i 0) with
  | none => (startChain values st.1 i, st.2 ++ [i])
  | some c => (st.1.set i (some (st.2.getD c 0)), st.2.set c i)

/-- The chains of the first `n` values. -/
def chains (values : List V) (n : ℕ) : ChainState :=
  (List.range n).foldl (chainStep values) (List.replicate values.length (some 0), [])

/-- The index of the value before each value on its chain. -/
def chainPrevious (values : List V) : List (Option ℕ) := (chains values values.length).1

example : chainPrevious [40, 8000, 41, 8003, (42 : ℤ)] = [none, none, some 0, some 1, some 2] := by
  decide +kernel

theorem chains_succ (values : List V) (n : ℕ) :
    chains values (n + 1) = chainStep values (chains values n) n := by
  rw [chains, range_succ, foldl_append]
  rfl

/-! ### A value below every chain -/

section displace
variable {values : List V} {prev : List (Option ℕ)} {i j : ℕ}

/-- The step that jumped over a value is an earlier one, and starts at or below it. -/
theorem widestStepOver_spec (h : widestStepOver values prev i = some j) :
    j < i ∧ ∃ p, prev.getD j none = some p ∧ values.getD p 0 ≤ values.getD i 0 := by
  revert h
  unfold widestStepOver
  refine List.foldlRecOn (motive := fun best : Option ℕ × V => best.1 = some j →
    j < i ∧ ∃ p, prev.getD j none = some p ∧ values.getD p 0 ≤ values.getD i 0) _ _ ?_ ?_
  · intro h
    cases h
  · intro best hbest k hk
    rw [widen]
    split
    · exact hbest
    · rename_i p hp
      split
      · exact hbest
      · rename_i hover
        split
        · intro hj
          obtain rfl : k = j := Option.some.inj hj
          exact ⟨mem_range.mp hk, p, hp, not_lt.mp (not_or.mp hover).1⟩
        · exact hbest

/-- TERMINATION: any number of rounds above the index gives the links of `startChain`. -/
theorem loop_displace (values : List V) (prev : List (Option ℕ)) (i : ℕ) :
    ∀ rounds, i < rounds →
      loop (displace values) rounds (prev, i) = some (startChain values prev i) := by
  have hround : ∀ s s', True → displace values s = .inl s' → True ∧ s'.2 < s.2 := by
    intro s s' _ h
    rw [displace] at h
    split at h
    · cases h
    · rename_i j hj
      obtain rfl := Sum.inl.inj h
      exact ⟨trivial, (widestStepOver_spec hj).1⟩
  obtain ⟨r, hr⟩ := loop_total (μ := Prod.snd) hround (s := (prev, i)) trivial
  intro rounds hi
  rw [hr rounds hi, startChain, hr (i + 1) i.lt_succ_self, Option.getD_some]

/-- INVARIANT RULE: what every round keeps holds when the last value displaced starts its chain. -/
theorem startChain_inv (values : List V) {I : List (Option ℕ) → ℕ → Prop}
    (hround : ∀ prev i j, I prev i → widestStepOver values prev i = some j →
      I (prev.set i (prev.getD j none)) j)
    (h : I prev i) : ∃ prev' i', I prev' i' ∧ startChain values prev i = prev'.set i' none := by
  have hkeeps : ∀ s s', I s.1 s.2 → displace values s = .inl s' → I s'.1 s'.2 := by
    intro s s' hI hb
    rw [displace] at hb
    split at hb
    · cases hb
    · rename_i j hj
      obtain rfl := Sum.inl.inj hb
      exact hround s.1 s.2 j hI hj
  obtain ⟨⟨prev', i'⟩, hI, hexit⟩ :=
    loop_exits hkeeps h (loop_displace values prev i (i + 1) i.lt_succ_self)
  refine ⟨prev', i', hI, ?_⟩
  rw [displace] at hexit
  split at hexit
  · exact (Sum.inr.inj hexit).symm
  · cases hexit

end displace

/-! ### The best chain -/

section best
variable {values : List V} {lasts : List ℕ} {v : V} {c : ℕ}

/-- The chosen chain is one of them, and does not end above the value. -/
theorem bestChain_spec (h : bestChain values lasts v = some c) :
    c < lasts.length ∧ values.getD (lasts.getD c 0) 0 ≤ v := by
  revert h
  unfold bestChain
  refine List.foldlRecOn (motive := fun best : Option ℕ => best = some c →
    c < lasts.length ∧ values.getD (lasts.getD c 0) 0 ≤ v) _ _ ?_ ?_
  · intro h
    cases h
  · intro best hbest lc hlc
    rw [nearer]
    split
    · rename_i hle
      intro hc
      obtain rfl : lc.2 = c := Option.some.inj hc
      have hget := mem_zipIdx_iff_getElem?.mp hlc
      refine ⟨(List.getElem?_eq_some_iff.mp hget).1, ?_⟩
      have hlast : lasts.getD lc.2 0 = lc.1 := by
        rw [getD_eq_getElem?_getD, hget]
        rfl
      rw [hlast]
      exact hle.1
    · exact hbest

/-- What a scan keeps ends at least as high as any chain it could have kept. -/
theorem foldl_nearer_le : ∀ (entries : List (ℕ × ℕ)), (∀ e ∈ entries, lasts.getD e.2 0 = e.1) →
    ∀ e ∈ entries, values.getD e.1 0 ≤ v →
      ∃ c, entries.foldl (nearer values lasts v) none = some c ∧
        values.getD e.1 0 ≤ values.getD (lasts.getD c 0) 0 := by
  intro entries
  induction entries using List.reverseRecOn with
  | nil => exact fun _ => forall_mem_nil _
  | append_singleton entries a ih =>
    intro hat e he hev
    obtain ⟨hentries, ha⟩ := forall_mem_append.mp hat
    have ha := ha a mem_cons_self
    rw [foldl_append, foldl_cons, foldl_nil]
    rcases mem_append.mp he with he | he
    · obtain ⟨c, hc, hle⟩ := ih hentries e he hev
      rw [hc, nearer]
      split
      · rename_i hnew
        refine ⟨a.2, rfl, ?_⟩
        rw [ha]
        exact hle.trans (of_decide_eq_true hnew.2).le
      · exact ⟨c, rfl, hle⟩
    · rw [mem_singleton.mp he] at hev ⊢
      rw [nearer]
      split
      · exact ⟨a.2, rfl, by rw [ha]⟩
      · rename_i hold
        cases hbest : entries.foldl (nearer values lasts v) none with
        | none =>
          rw [hbest] at hold
          exact absurd ⟨hev, rfl⟩ hold
        | some c =>
          rw [hbest] at hold
          refine ⟨c, rfl, not_lt.mp fun hlt => hold ⟨hev, decide_eq_true hlt⟩⟩

/-- It ends at least as high as any that could be chosen. -/
theorem bestChain_le {l : ℕ} (hl : l ∈ lasts) (hlv : values.getD l 0 ≤ v) :
    ∃ c, bestChain values lasts v = some c ∧ values.getD l 0 ≤ values.getD (lasts.getD c 0) 0 := by
  obtain ⟨i, hi, rfl⟩ := getElem_of_mem hl
  have hmem : (lasts[i], i) ∈ lasts.zipIdx :=
    mem_zipIdx_iff_getElem?.mpr (List.getElem?_eq_getElem hi)
  refine foldl_nearer_le lasts.zipIdx (fun e he => ?_) _ hmem hlv
  rw [getD_eq_getElem?_getD, mem_zipIdx_iff_getElem?.mp he]
  rfl

end best

/-! ### Chains rise -/

/-- Of the first `n` values each is at or above the one before it on its chain. -/
def Rising (values : List V) (n : ℕ) (prev : List (Option ℕ)) : Prop :=
  ∀ j < n, ∀ p, prev.getD j none = some p → values.getD p 0 ≤ values.getD j 0

/-- The same of all but the value at `i`, which is still to be placed. -/
def RisingBut (values : List V) (n i : ℕ) (prev : List (Option ℕ)) : Prop :=
  ∀ j < n, j ≠ i → ∀ p, prev.getD j none = some p → values.getD p 0 ≤ values.getD j 0

section rising
variable {values : List V} {n i : ℕ} {prev : List (Option ℕ)}

theorem getD_set {j : ℕ} {o : Option ℕ} :
    (prev.set i o).getD j none = if i = j ∧ i < prev.length then o else prev.getD j none := by
  simp only [getD_eq_getElem?_getD, List.getElem?_set]
  by_cases hij : i = j
  · subst hij
    by_cases hi : i < prev.length
    · simp [hi]
    · simp [hi]
  · simp [hij]

/-- A step is set that does not fall, and no other step falls. -/
theorem rising_set {o : Option ℕ} (h : RisingBut values n i prev)
    (ho : ∀ p, o = some p → values.getD p 0 ≤ values.getD i 0) :
    Rising values n (prev.set i o) := by
  intro j hj p hp
  by_cases hij : i = j
  · subst hij
    rw [getD_set] at hp
    split at hp
    · exact ho p hp
    · rename_i hi
      rw [getD_eq_getElem?_getD, List.getElem?_eq_none (by simpa using hi)] at hp
      cases hp
  · rw [getD_set, if_neg fun h => hij h.1] at hp
    exact h j hj (Ne.symm hij) p hp

theorem rising_startChain (h : RisingBut values n i prev) :
    Rising values n (startChain values prev i) := by
  have hround : ∀ prev i j, RisingBut values n i prev → widestStepOver values prev i = some j →
      RisingBut values n j (prev.set i (prev.getD j none)) := by
    intro prev i j hrest hj k hk _
    obtain ⟨-, p, hp, hle⟩ := widestStepOver_spec hj
    rw [hp]
    exact rising_set hrest (fun q hq => Option.some.inj hq ▸ hle) k hk
  obtain ⟨prev', i', hrest, hset⟩ := startChain_inv values (I := fun prev i => RisingBut values n i prev)
    hround h
  rw [hset]
  exact rising_set hrest (by rintro p ⟨⟩)

theorem rising_chains : ∀ n, Rising values n (chains values n).1
  | 0 => fun _ hj => absurd hj (Nat.not_lt_zero _)
  | n + 1 => by
    have hbefore : RisingBut values (n + 1) n (chains values n).1 := fun j hj hne =>
      rising_chains n j (lt_of_le_of_ne (Nat.lt_succ_iff.mp hj) hne)
    rw [chains_succ, chainStep]
    split
    · exact rising_startChain hbefore
    · rename_i c hc
      refine rising_set hbefore fun p hp => ?_
      exact Option.some.inj hp ▸ (bestChain_spec hc).2

/-- No value is below the one before it on its chain. -/
theorem chainPrevious_le {p : ℕ} (hi : i < values.length)
    (h : (chainPrevious values).getD i none = some p) : values.getD p 0 ≤ values.getD i 0 :=
  rising_chains values.length i hi p h

end rising

theorem length_startChain (values : List V) (prev : List (Option ℕ)) (i : ℕ) :
    (startChain values prev i).length = prev.length := by
  have hkeeps : ∀ prev' i' j, prev'.length = prev.length → widestStepOver values prev' i' = some j →
      (prev'.set i' (prev'.getD j none)).length = prev.length :=
        fun _ _ _ hlen _ => length_set.trans hlen
  obtain ⟨prev', i', hlen, hset⟩ := startChain_inv values hkeeps (i := i) rfl
  rw [hset, length_set, hlen]

theorem length_chains (values : List V) : ∀ n, (chains values n).1.length = values.length
  | 0 => length_replicate
  | n + 1 => by
    rw [chains_succ, chainStep]
    split
    · exact (length_startChain values _ _).trans (length_chains values n)
    · exact length_set.trans (length_chains values n)

/-- The increase of each value over the one before it on its chain. -/
def chainSteps (values : List V) : List V :=
  (chainPrevious values).zipIdx.map fun pi =>
    pi.1.elim 0 fun p => values.getD pi.2 0 - values.getD p 0

theorem chainSteps_nonneg {V : Type*} [AddCommGroup V] [LinearOrder V] [IsOrderedAddMonoid V]
    (values : List V) : ∀ d ∈ chainSteps values, 0 ≤ d := by
  intro d hd
  obtain ⟨⟨o, i⟩, hoi, rfl⟩ := mem_map.mp hd
  cases o with
  | none => exact le_rfl
  | some p =>
    have hget := mem_zipIdx_iff_getElem?.mp hoi
    obtain ⟨hi, -⟩ := List.getElem?_eq_some_iff.mp hget
    refine sub_nonneg.mpr (chainPrevious_le ?_ ?_)
    · rwa [chainPrevious, length_chains] at hi
    · rw [getD_eq_getElem?_getD, hget]
      rfl

section total
variable {V : Type*} [AddCommGroup V] [LinearOrder V]

/-- What all chains grow by. -/
def chainTotal (values : List V) : V := (chainSteps values).sum

/-- The step at an index. -/
def stepAt (values : List V) (prev : List (Option ℕ)) (i : ℕ) : V :=
  (prev.getD i none).elim 0 fun p => values.getD i 0 - values.getD p 0

theorem chainSteps_eq (values : List V) :
    chainSteps values = (List.range values.length).map (stepAt values (chainPrevious values)) := by
  have hlen : (chainPrevious values).length = values.length := length_chains values values.length
  rw [chainSteps]
  refine ext_getElem (by simp [hlen]) fun i hi _ => ?_
  have hip : i < (chainPrevious values).length := by simpa using hi
  simp only [getElem_map, getElem_zipIdx, getElem_range, stepAt, Nat.zero_add,
    getD_eq_getElem _ _ hip]

end total

end Spanbarn.Metrics
