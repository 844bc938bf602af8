import Mathlib.Algebra.BigOperators.Group.Finset.Basic
import Mathlib.Data.Finset.Card
import Mathlib.Tactic.Abel

/-! Chains of indexes, given by what comes before each.

    Every index of a set points to a smaller one or starts a chain, and no index is pointed to twice: the
    set falls into chains. Each chain has one first and one end, and the steps along all chains
    telescope.

        index    0    1    2    3    4
        prev     -    -    0    1    2            firsts 0 1, ends 3 4

    Indexes whose values fall from one to the next are all on different chains when no chain falls, so
    the longest such row bounds the number of chains from below. -/

namespace Spanbarn.Schemes
open List

/-- Links among the indexes of `s`: to a smaller index with a value no larger, and no two to one. -/
structure Links {V : Type*} [LE V] (v : ℕ → V) (s : Finset ℕ) (prev : ℕ → Option ℕ) : Prop where
  below : ∀ i ∈ s, ∀ p, prev i = some p → p < i
  rises : ∀ i ∈ s, ∀ p, prev i = some p → v p ≤ v i
  once : ∀ i ∈ s, ∀ j ∈ s, ∀ p, prev i = some p → prev j = some p → i = j

/-- The indexes that start a chain. -/
def firsts (s : Finset ℕ) (prev : ℕ → Option ℕ) : Finset ℕ := s.filter fun i => prev i = none

/-- The indexes that no other points to. -/
def ends (s : Finset ℕ) (prev : ℕ → Option ℕ) : Finset ℕ := s.filter fun p => ∀ i ∈ s, prev i ≠ some p

section links
variable {V : Type*} [Preorder V] {v : ℕ → V} {s : Finset ℕ} {prev : ℕ → Option ℕ} {i j p : ℕ}

/-- An index gets its link. -/
theorem Links.fill {o : Option ℕ} (h : Links v (s.erase i) prev)
    (hbelow : ∀ p, o = some p → p < i ∧ v p ≤ v i)
    (honce : ∀ p, o = some p → ∀ j ∈ s.erase i, prev j ≠ some p) :
    Links v s (Function.update prev i o) := by
  have hold : ∀ j ∈ s, j ≠ i → j ∈ s.erase i ∧ Function.update prev i o j = prev j :=
    fun j hj hji => ⟨Finset.mem_erase.mpr ⟨hji, hj⟩, Function.update_of_ne hji _ _⟩
  refine ⟨?_, ?_, ?_⟩
  · intro j hj p hp
    by_cases hji : j = i
    · subst hji
      rw [Function.update_self] at hp
      exact (hbelow p hp).1
    · obtain ⟨hj, heq⟩ := hold j hj hji
      exact h.below j hj p (heq ▸ hp)
  · intro j hj p hp
    by_cases hji : j = i
    · subst hji
      rw [Function.update_self] at hp
      exact (hbelow p hp).2
    · obtain ⟨hj, heq⟩ := hold j hj hji
      exact h.rises j hj p (heq ▸ hp)
  · intro j hj k hk p hjp hkp
    by_cases hji : j = i
    · by_cases hki : k = i
      · rw [hji, hki]
      · obtain ⟨hk, heq⟩ := hold k hk hki
        rw [hji, Function.update_self] at hjp
        exact absurd (heq ▸ hkp) (honce p hjp k hk)
    · obtain ⟨hj, heq⟩ := hold j hj hji
      by_cases hki : k = i
      · rw [hki, Function.update_self] at hkp
        exact absurd (heq ▸ hjp) (honce p hkp j hj)
      · obtain ⟨hk, heq'⟩ := hold k hk hki
        exact h.once j hj k hk p (heq ▸ hjp) (heq' ▸ hkp)

/-- An index takes over the link of another, which is left without one. -/
theorem Links.move (h : Links v (s.erase i) prev) (hj : j ∈ s) (hij : j ≠ i)
    (hp : prev j = some p) (hpi : p < i) (hv : v p ≤ v i) :
    Links v (s.erase j) (Function.update prev i (some p)) := by
  have hsub : ∀ k ∈ (s.erase j).erase i, k ∈ s.erase i := fun k hk => by
    rw [Finset.mem_erase, Finset.mem_erase] at hk
    exact Finset.mem_erase.mpr ⟨hk.1, hk.2.2⟩
  have hrest : Links v ((s.erase j).erase i) prev :=
    ⟨fun k hk => h.below k (hsub k hk), fun k hk => h.rises k (hsub k hk),
      fun k hk l hl => h.once k (hsub k hk) l (hsub l hl)⟩
  refine hrest.fill (fun q hq => Option.some.inj hq ▸ ⟨hpi, hv⟩) fun q hq k hk hkq => ?_
  have hkj := h.once k (hsub k hk) j (Finset.mem_erase.mpr ⟨hij, hj⟩) p
    (hkq.trans hq.symm) hp
  rw [hkj] at hk
  exact absurd rfl (Finset.mem_erase.mp (Finset.mem_erase.mp hk).2).1

end links

/-! ### Firsts, ends and the steps between -/

section sums
variable {V : Type*} [Preorder V] {v : ℕ → V} {n : ℕ} {prev : ℕ → Option ℕ}

/-- What the links lead to is everything but the ends. -/
theorem Links.sum_prev {M : Type*} [AddCommMonoid M] (h : Links v (Finset.range n) prev) (g : ℕ → M) :
    ∑ i ∈ Finset.range n, (prev i).elim 0 g + ∑ p ∈ ends (Finset.range n) prev, g p =
      ∑ i ∈ Finset.range n, g i := by
  have hlinked : ∑ i ∈ Finset.range n, (prev i).elim 0 g =
      ∑ p ∈ (Finset.range n).filter (fun p => ¬∀ i ∈ Finset.range n, prev i ≠ some p), g p := by
    refine Finset.sum_bij_ne_zero (fun i _ _ => (prev i).getD 0) ?_ ?_ ?_ ?_
    · intro i hi hne
      cases hp : prev i with
      | none => rw [hp] at hne; exact absurd rfl hne
      | some p =>
        rw [Option.getD_some, Finset.mem_filter, Finset.mem_range]
        have hpn := (h.below i hi p hp).trans (Finset.mem_range.mp hi)
        exact ⟨hpn, fun hall => hall i hi hp⟩
    · intro i hi hine j hj hjne hij
      cases hp : prev i with
      | none => rw [hp] at hine; exact absurd rfl hine
      | some p =>
        cases hq : prev j with
        | none => rw [hq] at hjne; exact absurd rfl hjne
        | some q =>
          rw [hp, hq, Option.getD_some, Option.getD_some] at hij
          exact h.once i hi j hj p hp (hij ▸ hq)
    · intro p hp hne
      obtain ⟨-, hnot⟩ := Finset.mem_filter.mp hp
      push Not at hnot
      obtain ⟨i, hi, hip⟩ := hnot
      refine ⟨i, hi, ?_, ?_⟩
      · rw [hip]
        exact hne
      · rw [hip, Option.getD_some]
    · intro i hi hne
      cases hp : prev i with
      | none => rw [hp] at hne; exact absurd rfl hne
      | some p => rfl
  rw [hlinked, ends, add_comm, Finset.sum_filter_add_sum_filter_not]

theorem sum_firsts {M : Type*} [AddCommMonoid M] (n : ℕ) (prev : ℕ → Option ℕ) (g : ℕ → M) :
    ∑ i ∈ Finset.range n, (prev i).elim 0 (fun _ => g i) + ∑ i ∈ firsts (Finset.range n) prev, g i =
      ∑ i ∈ Finset.range n, g i := by
  rw [firsts, Finset.sum_filter, ← Finset.sum_add_distrib]
  refine Finset.sum_congr rfl fun i _ => ?_
  cases prev i with
  | none => simp
  | some p => simp

/-- A chain has one end and one first. -/
theorem Links.card_ends (h : Links v (Finset.range n) prev) :
    (ends (Finset.range n) prev).card = (firsts (Finset.range n) prev).card := by
  have hends := h.sum_prev (fun _ => 1)
  have hfirsts := sum_firsts n prev (fun _ => 1)
  rw [← Finset.card_eq_sum_ones] at hends hfirsts
  omega

end sums

/-- The steps along the chains add up to the ends less the firsts. -/
theorem Links.sum_steps {V : Type*} [AddCommGroup V] [Preorder V] {v : ℕ → V} {n : ℕ}
    {prev : ℕ → Option ℕ} (h : Links v (Finset.range n) prev) :
    ∑ i ∈ Finset.range n, (prev i).elim 0 (fun p => v i - v p) =
      ∑ i ∈ ends (Finset.range n) prev, v i - ∑ i ∈ firsts (Finset.range n) prev, v i := by
  have hends := h.sum_prev v
  have hfirsts := sum_firsts n prev v
  have hsteps : ∑ i ∈ Finset.range n, (prev i).elim 0 (fun p => v i - v p) =
      ∑ i ∈ Finset.range n, (prev i).elim 0 (fun _ => v i) -
        ∑ i ∈ Finset.range n, (prev i).elim 0 v := by
    rw [← Finset.sum_sub_distrib]
    refine Finset.sum_congr rfl fun i _ => ?_
    cases prev i with
    | none => exact (sub_zero 0).symm
    | some p => rfl
  rw [hsteps, eq_sub_of_add_eq hends, eq_sub_of_add_eq hfirsts]
  abel

/-! ### The chain of an index -/

/-- The first of the chain of `i`, in at most `fuel` links. -/
def rootIn (prev : ℕ → Option ℕ) : ℕ → ℕ → ℕ
  | 0, i => i
  | fuel + 1, i => (prev i).elim i (rootIn prev fuel)

/-- The first of the chain of `i`; links lead down, so `i` of them are enough. -/
def root (prev : ℕ → Option ℕ) (i : ℕ) : ℕ := rootIn prev i i

/-- From `j`, links lead back to `i`. -/
inductive Leads (prev : ℕ → Option ℕ) : ℕ → ℕ → Prop where
  | refl {i : ℕ} : Leads prev i i
  | step {i j p : ℕ} : prev j = some p → Leads prev p i → Leads prev j i

section chain
variable {V : Type*} [Preorder V] {v : ℕ → V} {n : ℕ} {prev : ℕ → Option ℕ}

theorem rootIn_first {i : ℕ} (hi : prev i = none) (fuel : ℕ) : rootIn prev fuel i = i := by
  cases fuel with
  | zero => rfl
  | succ fuel => rw [rootIn, hi]; rfl

/-- More links than the index do not matter. -/
theorem rootIn_fuel (h : Links v (Finset.range n) prev) : ∀ {fuel fuel' i : ℕ}, i ≤ fuel → i ≤ fuel' →
    i < n → rootIn prev fuel i = rootIn prev fuel' i := by
  intro fuel
  induction fuel with
  | zero =>
    intro fuel' i hi _ hn
    obtain rfl := Nat.le_zero.mp hi
    cases hp : prev 0 with
    | none => rw [rootIn_first hp, rootIn_first hp]
    | some p => exact absurd (h.below 0 (Finset.mem_range.mpr hn) p hp) (Nat.not_lt_zero p)
  | succ fuel ih =>
    intro fuel' i hi hi' hn
    cases hp : prev i with
    | none => rw [rootIn_first hp, rootIn_first hp]
    | some p =>
      have hpi := h.below i (Finset.mem_range.mpr hn) p hp
      obtain ⟨fuel', rfl⟩ : ∃ m, fuel' = m + 1 := ⟨fuel' - 1, by omega⟩
      rw [rootIn, rootIn, hp]
      exact ih (by omega) (by omega) (by omega)

theorem root_first {i : ℕ} (hi : prev i = none) : root prev i = i := rootIn_first hi i

theorem root_link (h : Links v (Finset.range n) prev) {i p : ℕ} (hn : i < n) (hp : prev i = some p) :
    root prev i = root prev p := by
  have hpi := h.below i (Finset.mem_range.mpr hn) p hp
  obtain ⟨m, rfl⟩ : ∃ m, i = m + 1 := ⟨i - 1, by omega⟩
  rw [root, rootIn, hp]
  exact rootIn_fuel h (by omega) le_rfl (by omega)

theorem root_spec (h : Links v (Finset.range n) prev) : ∀ i < n,
    root prev i ∈ firsts (Finset.range n) prev ∧ root prev i ≤ i := by
  intro i
  induction i using Nat.strong_induction_on with
  | _ i ih =>
    intro hn
    cases hp : prev i with
    | none =>
      rw [root_first hp]
      exact ⟨Finset.mem_filter.mpr ⟨Finset.mem_range.mpr hn, hp⟩, le_rfl⟩
    | some p =>
      have hpi := h.below i (Finset.mem_range.mpr hn) p hp
      obtain ⟨hfirst, hle⟩ := ih p hpi (hpi.trans hn)
      rw [root_link h hn hp]
      exact ⟨hfirst, hle.trans hpi.le⟩

/-- The last link before `i`. -/
theorem Leads.last {i j : ℕ} (h : Leads prev j i) : j = i ∨ ∃ c, Leads prev j c ∧ prev c = some i := by
  induction h with
  | refl => exact .inl rfl
  | @step i j p hp h ih =>
    rcases ih with rfl | ⟨c, hc, hci⟩
    · exact .inr ⟨j, .refl, hp⟩
    · exact .inr ⟨c, .step hp hc, hci⟩

theorem Leads.le (h : Links v (Finset.range n) prev) {i j : ℕ} (hl : Leads prev j i) (hj : j < n) :
    i ≤ j ∧ v i ≤ v j := by
  induction hl with
  | refl => exact ⟨le_rfl, le_rfl⟩
  | step hp _ ih =>
    have hlt := h.below _ (Finset.mem_range.mpr hj) _ hp
    obtain ⟨hle, hv⟩ := ih (hlt.trans hj)
    exact ⟨hle.trans hlt.le, hv.trans (h.rises _ (Finset.mem_range.mpr hj) _ hp)⟩

/-- Two indexes with one first are on one chain: links lead from the larger to the smaller. -/
theorem leads_of_root (h : Links v (Finset.range n) prev) : ∀ {j i : ℕ}, j < n → i ≤ j →
    root prev i = root prev j → Leads prev j i := by
  intro j
  induction j using Nat.strong_induction_on with
  | _ j ih =>
    intro i hj hij hroot
    rcases hij.eq_or_lt with rfl | hlt
    · exact .refl
    cases hp : prev j with
    | none =>
      -- `j` would be the first of the chain of a smaller index
      have hle := (root_spec h i (hlt.trans hj)).2
      rw [hroot, root_first hp] at hle
      omega
    | some q =>
      have hqj := h.below j (Finset.mem_range.mpr hj) q hp
      have hqroot := root_link h hj hp
      rcases le_or_gt i q with hiq | hqi
      · exact .step hp (ih q hqj (hqj.trans hj) hiq (hroot.trans hqroot))
      · -- `q` would have a second index that points to it
        have hback := ih i hlt (hlt.trans hj) hqi.le (hqroot.symm.trans hroot.symm)
        rcases hback.last with hiq | ⟨c, hc, hcq⟩
        · omega
        · have hci := (hc.le h (hlt.trans hj)).1
          have hcj := h.once c (Finset.mem_range.mpr (by omega)) j (Finset.mem_range.mpr hj) q hcq hp
          omega

end chain

/-! ### How many chains -/

/-- A labelling of the first `n` indexes that no value falls in. -/
def Splitting {V : Type*} [LE V] (v : ℕ → V) (n : ℕ) (label : ℕ → ℕ) : Prop :=
  ∀ i j, i < j → j < n → label i = label j → v i ≤ v j

/-- Indexes among the first `n` along which the values fall. -/
def Falling {V : Type*} [LT V] (v : ℕ → V) (n : ℕ) (l : List ℕ) : Prop :=
  l.Pairwise (fun i j => i < j ∧ v j < v i) ∧ ∀ i ∈ l, i < n

section count
variable {V : Type*} [LinearOrder V] {v : ℕ → V} {n : ℕ} {prev : ℕ → Option ℕ}

/-- The chains are such a labelling. -/
theorem Links.splitting (h : Links v (Finset.range n) prev) : Splitting v n (root prev) := by
  intro i j hij hj hroot
  exact ((leads_of_root h hj hij.le hroot).le h hj).2

theorem Links.image_root (h : Links v (Finset.range n) prev) :
    (Finset.range n).image (root prev) = firsts (Finset.range n) prev := by
  ext i
  rw [Finset.mem_image]
  constructor
  · rintro ⟨j, hj, rfl⟩
    exact (root_spec h j (Finset.mem_range.mp hj)).1
  · intro hi
    obtain ⟨hn, hp⟩ := Finset.mem_filter.mp hi
    exact ⟨i, hn, root_first hp⟩

/-- Values that fall have different labels. -/
theorem falling_le {label : ℕ → ℕ} (hs : Splitting v n label) {l : List ℕ} (hl : Falling v n l) :
    l.length ≤ ((Finset.range n).image label).card := by
  have hnodup : (l.map label).Nodup := by
    rw [List.Nodup, pairwise_map]
    refine hl.1.imp_of_mem ?_
    intro i j _ hj hij hlabel
    exact absurd (hs i j hij.1 (hl.2 j hj) hlabel) (not_le.mpr hij.2)
  have hsub : (l.map label).toFinset ⊆ (Finset.range n).image label := by
    intro x hx
    obtain ⟨i, hi, rfl⟩ := mem_map.mp (mem_toFinset.mp hx)
    exact Finset.mem_image_of_mem _ (Finset.mem_range.mpr (hl.2 i hi))
  have hcard := Finset.card_le_card hsub
  rwa [toFinset_card_of_nodup hnodup, length_map] at hcard

/-! ### Ends that fall -/

/-- Of the ends from place `k` on, each is the last of a fall that is one longer than its place. -/
def Rows (v : ℕ → V) (n : ℕ) : ℕ → List ℕ → Prop
  | _, [] => True
  | k, x :: rest => (∃ l, Falling v n (l ++ [x]) ∧ l.length = k) ∧ Rows v n (k + 1) rest

theorem falling_mono {m : ℕ} (hnm : n ≤ m) {l : List ℕ} (h : Falling v n l) :
    Falling v m l := ⟨h.1, fun i hi => (h.2 i hi).trans_le hnm⟩

theorem rows_mono {m : ℕ} (hnm : n ≤ m) : ∀ {k : ℕ} {lasts : List ℕ},
    Rows v n k lasts → Rows v m k lasts
  | _, [], _ => trivial
  | _, _ :: _, ⟨⟨l, hl, hlen⟩, hrest⟩ => ⟨⟨l, falling_mono hnm hl, hlen⟩, rows_mono hnm hrest⟩

theorem rows_append : ∀ {front : List ℕ} {k : ℕ} {back : List ℕ},
    Rows v n k (front ++ back) ↔ Rows v n k front ∧ Rows v n (k + front.length) back := by
  intro front
  induction front with
  | nil =>
    intro k back
    exact (true_and _).symm.to_iff
  | cons x front ih =>
    intro k back
    rw [cons_append, Rows, Rows, ih, length_cons, and_assoc, Nat.add_right_comm, Nat.add_assoc]

/-- A fall as long as the ends. -/
theorem rows_longest {lasts : List ℕ} (h : Rows v n 0 lasts) :
    ∃ l, Falling v n l ∧ l.length = lasts.length := by
  rcases eq_nil_or_concat lasts with rfl | ⟨front, x, rfl⟩
  · exact ⟨[], ⟨List.Pairwise.nil, forall_mem_nil _⟩, rfl⟩
  · rw [concat_eq_append, rows_append] at h
    obtain ⟨l, hl, hlen⟩ := h.2.1
    refine ⟨l ++ [x], hl, ?_⟩
    rw [length_append, hlen]
    simp

/-- A value below the ends before it goes on with the fall of the last of them. -/
theorem rows_next {front : List ℕ} (h : Rows v n 0 front) (hbelow : ∀ a ∈ front, v n < v a) :
    ∃ l, Falling v (n + 1) (l ++ [n]) ∧ l.length = front.length := by
  rcases eq_nil_or_concat front with rfl | ⟨front, x, rfl⟩
  · exact ⟨[], ⟨pairwise_singleton _ _, forall_mem_singleton.mpr n.lt_succ_self⟩, rfl⟩
  · rw [concat_eq_append] at h hbelow ⊢
    rw [rows_append] at h
    obtain ⟨l, ⟨hfall, hbound⟩, hlen⟩ := h.2.1
    have hx : v n < v x := hbelow x (mem_append_right _ mem_cons_self)
    refine ⟨l ++ [x], ⟨pairwise_append.mpr ⟨hfall, pairwise_singleton _ _, ?_⟩, ?_⟩, ?_⟩
    · intro i hi j hj
      obtain rfl := mem_singleton.mp hj
      refine ⟨hbound i hi, ?_⟩
      rcases mem_append.mp hi with hil | hix
      · have hxi := (pairwise_append.mp hfall).2.2 i hil x mem_cons_self
        exact hx.trans hxi.2
      · rwa [mem_singleton.mp hix]
    · refine forall_mem_append.mpr ⟨fun i hi => (hbound i hi).trans n.lt_succ_self, ?_⟩
      exact forall_mem_singleton.mpr n.lt_succ_self
    · rw [length_append, length_append, hlen]
      simp

end count

end Spanbarn.Schemes
