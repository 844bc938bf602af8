import Mathlib.Algebra.Order.Floor.Ring
import Mathlib.Data.List.GetD
import Mathlib.Data.Rat.Floor
import Mathlib.Tactic.Linarith
import Spanbarn.Schemes.Pieces
import Spanbarn.SpanHist.Observed

/-! Percentiles of a histogram.

    The rank of a percentile is looked for bin by bin, and inside its bin the value is interpolated
    between the smallest and the largest duration:

        sorted    3  3  4 │ 9  12           rank 4: first of its bin, 9
        bins      3 ··· 4 │ 9 ··· 12        rank 2: between 3 and 4

    When longer durations never fall in a lower bin, the durations in order are the bins' durations one
    bin after another, so the bin found is that of the duration with the rank. Arithmetic is exact. -/

namespace Spanbarn.SpanHist
open List Spanbarn.Schemes

/-- The conversion to an integer: towards zero. -/
def truncate (x : ℚ) : ℤ := if 0 ≤ x then ⌊x⌋ else ⌈x⌉

/-- `math.Round`: half away from zero. -/
def round (x : ℚ) : ℤ := if 0 ≤ x then ⌊x + 1 / 2⌋ else ⌈x - 1 / 2⌉

/-- The nearest rank, in 1 to `total`. -/
def rankOf (p : ℚ) (total : ℤ) : ℤ := min (max (truncate (p / 100 * total + 1 / 2)) 1) total

/-- The value at place `k` of a bin, counted from 0. -/
def Bin.at (b : Bin) (k : ℤ) : ℤ :=
  if b.count = 1 then b.min
  else b.min + round ((k : ℚ) / (b.count - 1 : ℤ) * (b.max - b.min : ℤ))

/-- The loop of `Percentile`; `none` when it falls through. -/
def percentileFrom (rank : ℤ) : ℤ → List Bin → Option ℤ
  | _, [] => none
  | before, b :: rest =>
    if before + b.count < rank then percentileFrom rank (before + b.count) rest
    else some (b.at (rank - before - 1))

def Hist.percentile (h : Hist) (p : ℚ) : ℤ :=
  if h.total = 0 then 0
  else (percentileFrom (rankOf p h.total) 0 h.bins).getD ((h.bins.getLast?.map Bin.max).getD 0)

/-! ### Inside a bin -/

theorem round_mono {x y : ℚ} (hx : 0 ≤ x) (hxy : x ≤ y) : round x ≤ round y := by
  rw [round, round, if_pos hx, if_pos (hx.trans hxy)]
  exact Int.floor_le_floor (by linarith)

theorem round_intCast {n : ℤ} (hn : 0 ≤ n) : round (n : ℚ) = n := by
  rw [round, if_pos (Int.cast_nonneg hn), Int.floor_eq_iff]
  constructor
  · linarith
  · linarith

variable {b : Bin} {k : ℤ}

/-- Where place `k` lies between the ends of its bin. -/
theorem place_mono {k' : ℤ} (hcount : 1 < b.count) (hk : 0 ≤ k) (hkk : k ≤ k') :
    0 ≤ (k : ℚ) / (b.count - 1 : ℤ) * (b.max - b.min : ℤ) ∧
      (k : ℚ) / (b.count - 1 : ℤ) * (b.max - b.min : ℤ) ≤
        (k' : ℚ) / (b.count - 1 : ℤ) * (b.max - b.min : ℤ) := by
  have hpos : (0 : ℚ) < (b.count - 1 : ℤ) := by
    exact_mod_cast (by omega : 0 < b.count - 1)
  have hwidth : (0 : ℚ) ≤ (b.max - b.min : ℤ) := by
    exact_mod_cast (by have := b.min_le_max; omega : 0 ≤ b.max - b.min)
  have hk' : (0 : ℚ) ≤ k := by exact_mod_cast hk
  have hle : (k : ℚ) ≤ k' := by exact_mod_cast hkk
  refine ⟨mul_nonneg (div_nonneg hk' hpos.le) hwidth, ?_⟩
  exact mul_le_mul_of_nonneg_right (div_le_div_of_nonneg_right hle hpos.le) hwidth

theorem at_mono {k' : ℤ} (hpos : 0 < b.count) (hk : 0 ≤ k) (hkk : k ≤ k') :
    b.at k ≤ b.at k' := by
  rw [Bin.at, Bin.at]
  by_cases hone : b.count = 1
  · rw [if_pos hone, if_pos hone]
  · obtain ⟨h0, hle⟩ := place_mono (b := b) (by omega) hk hkk
    rw [if_neg hone, if_neg hone]
    exact Int.add_le_add_left (round_mono h0 hle) _

/-- The first place of a bin is its smallest duration. -/
theorem at_first (b : Bin) : b.at 0 = b.min := by
  rw [Bin.at]
  by_cases hone : b.count = 1
  · rw [if_pos hone]
  · have hzero := round_intCast (n := 0) le_rfl
    rw [Int.cast_zero] at hzero
    rw [if_neg hone, Int.cast_zero, zero_div, zero_mul, hzero, add_zero]

/-- The last place is its largest, unless it is the only one. -/
theorem at_last (hcount : 1 < b.count) : b.at (b.count - 1) = b.max := by
  have hne : ((b.count - 1 : ℤ) : ℚ) ≠ 0 := by
    exact_mod_cast (by omega : b.count - 1 ≠ 0)
  have hle := b.min_le_max
  rw [Bin.at, if_neg (by omega), div_self hne, one_mul, round_intCast (by omega)]
  omega

theorem at_between (hk : 0 ≤ k) (hlt : k < b.count) :
    b.min ≤ b.at k ∧ b.at k ≤ b.max := by
  have hfirst := at_mono (b := b) (by omega) le_rfl hk
  rw [at_first] at hfirst
  refine ⟨hfirst, ?_⟩
  by_cases hone : b.count = 1
  · rw [Bin.at, if_pos hone]
    exact b.min_le_max
  · rw [← at_last (by omega)]
    exact at_mono (by omega) hk (by omega)

/-! ### The bin of a rank -/

/-- Every duration of a bin is at most every duration of a later one. -/
def Apart (l : List Bin) : Prop := l.Pairwise fun a b => a.max ≤ b.min

/-- The loop stops in a bin, at the place that the rank has there. -/
theorem percentileFrom_spec (rank : ℤ) : ∀ {l : List Bin} (before : ℤ), (∀ b ∈ l, 0 < b.count) →
    before < rank → rank ≤ before + (l.map Bin.count).sum →
    ∃ front b back, ∃ k : ℕ, l = front ++ b :: back ∧ (k : ℤ) < b.count ∧
      rank = before + (front.map Bin.count).sum + k + 1 ∧
      percentileFrom rank before l = some (b.at k) := by
  intro l
  induction l with
  | nil =>
    intro before _ hlt hle
    rw [map_nil, sum_nil] at hle
    omega
  | cons b l ih =>
    intro before hpos hlt hle
    obtain ⟨hb, hpos⟩ := forall_mem_cons.mp hpos
    rw [percentileFrom]
    by_cases hmore : before + b.count < rank
    · rw [map_cons, sum_cons] at hle
      obtain ⟨front, c, back, k, rfl, hkc, hrank, hfrom⟩ := ih (before + b.count) hpos hmore (by omega)
      refine ⟨b :: front, c, back, k, rfl, hkc, ?_, ?_⟩
      · rw [map_cons, sum_cons]
        omega
      · rw [if_pos hmore]
        exact hfrom
    · refine ⟨[], b, l, (rank - before - 1).toNat, rfl, by omega, ?_, ?_⟩
      · rw [map_nil, sum_nil]
        omega
      · rw [if_neg hmore, Int.toNat_of_nonneg (by omega)]

/-- A higher rank does not have a lower value. -/
theorem percentileFrom_mono {rank rank' : ℤ} (hrank : rank ≤ rank') : ∀ {l : List Bin} {before x y : ℤ},
    (∀ b ∈ l, 0 < b.count) → Apart l → before < rank → rank' ≤ before + (l.map Bin.count).sum →
    percentileFrom rank before l = some x → percentileFrom rank' before l = some y → x ≤ y := by
  intro l
  induction l with
  | nil =>
    intro before x y _ _ _ _ h
    cases h
  | cons b l ih =>
    intro before x y hpos hapart hlt hle hx hy
    obtain ⟨hb, hpos⟩ := forall_mem_cons.mp hpos
    obtain ⟨hlater, hapart⟩ := pairwise_cons.mp hapart
    rw [map_cons, sum_cons] at hle
    rw [percentileFrom] at hx hy
    by_cases hmore : before + b.count < rank
    · rw [if_pos hmore] at hx
      rw [if_pos (by omega)] at hy
      exact ih hpos hapart hmore (by omega) hx hy
    · rw [if_neg hmore] at hx
      obtain rfl := Option.some.inj hx
      by_cases hmore' : before + b.count < rank'
      · -- the other rank is in a later bin
        rw [if_pos hmore'] at hy
        obtain ⟨front, c, back, k, rfl, hkc, -, hfrom⟩ :=
          percentileFrom_spec rank' _ hpos hmore' (by omega)
        obtain rfl := Option.some.inj (hfrom.symm.trans hy)
        have hbc := hlater c (mem_append_right _ mem_cons_self)
        have hx := (at_between (b := b) (k := rank - before - 1) (by omega) (by omega)).2
        exact hx.trans (hbc.trans (at_between (Int.natCast_nonneg k) hkc).1)
      · rw [if_neg hmore'] at hy
        obtain rfl := Option.some.inj hy
        exact at_mono hb (by omega) (by omega)

/-! ### The durations in order -/

section order
variable {log4 : ℤ → ℤ} {durations : List ℤ}

def sorted (durations : List ℤ) : List ℤ := durations.insertionSort (· ≤ ·)

/-- The durations of a bin, in order. -/
def part (log4 : ℤ → ℤ) (durations : List ℤ) (b : Bin) : List ℤ :=
  sorted (fallingIn log4 durations b.index)

theorem sorted_perm (durations : List ℤ) : (sorted durations).Perm durations :=
  perm_insertionSort _ durations

theorem sorted_pairwise (durations : List ℤ) : (sorted durations).Pairwise (· ≤ ·) :=
  pairwise_insertionSort _ durations

theorem mem_part {d : ℤ} : d ∈ part log4 durations b ↔ d ∈ durations ∧ index log4 d = b.index := by
  rw [part, (sorted_perm _).mem_iff, fallingIn, mem_filter, decide_eq_true_eq]

/-- Durations of a lower bin are shorter. -/
theorem le_of_index (hmono : Monotone (index log4)) {x y : ℤ}
    (h : index log4 x < index log4 y) : x ≤ y := by
  by_contra hlt
  exact absurd (hmono (not_le.mp hlt).le) (not_le.mpr h)

/-- The durations in order are those of the bins, one bin after another. -/
theorem flatMap_part (hmono : Monotone (index log4)) (durations : List ℤ) :
    (Hist.of log4 durations).bins.flatMap (part log4 durations) = sorted durations := by
  have hperm :
      ((Hist.of log4 durations).bins.flatMap (part log4 durations)).Perm (sorted durations) := by
    have hkeys : ((Hist.of log4 durations).bins.map Bin.index).Nodup :=
      (Hist.of log4 durations).ascending.keyed
    have hcover : ∀ d ∈ durations, index log4 d ∈ (Hist.of log4 durations).bins.map Bin.index := by
      intro d hd
      obtain ⟨b, hb, hindex⟩ := bin_of_mem hd
      exact mem_map.mpr ⟨b, hb, hindex⟩
    have hparts := perm_parts hkeys hcover
    rw [flatMap_map] at hparts
    refine .trans (List.Perm.flatMap_left _ fun b _ => sorted_perm _) (hparts.trans ?_)
    exact (sorted_perm durations).symm
  refine hperm.eq_of_pairwise (fun x y _ _ => le_antisymm) ?_ (sorted_pairwise durations)
  rw [pairwise_flatMap]
  refine ⟨fun b _ => sorted_pairwise _, (Hist.of log4 durations).ascending.imp ?_⟩
  intro a b hab x hx y hy
  refine le_of_index hmono ?_
  rw [(mem_part.mp hx).2, (mem_part.mp hy).2]
  exact hab

theorem apart_bins (hmono : Monotone (index log4)) : Apart (Hist.of log4 durations).bins := by
  refine (Hist.of log4 durations).ascending.imp_of_mem ?_
  intro a b ha hb hab
  obtain ⟨-, -, -, hmax, -⟩ := sums_mem ha
  obtain ⟨-, -, hmin, -, -⟩ := sums_mem hb
  refine le_of_index hmono ?_
  rw [of_decide_eq_true (mem_filter.mp hmax).2, of_decide_eq_true (mem_filter.mp hmin).2]
  exact hab

theorem length_part (hb : b ∈ (Hist.of log4 durations).bins) :
    b.count = (part log4 durations b).length := by
  rw [part, (sorted_perm _).length_eq]
  exact (sums_mem hb).2.1

theorem length_parts : ∀ {l : List Bin}, (∀ b ∈ l, b ∈ (Hist.of log4 durations).bins) →
    (l.map Bin.count).sum = (l.flatMap (part log4 durations)).length := by
  intro l
  induction l with
  | nil =>
    intro _
    rfl
  | cons b l ih =>
    intro hmem
    obtain ⟨hb, hmem⟩ := forall_mem_cons.mp hmem
    rw [map_cons, sum_cons, flatMap_cons, length_append, ih hmem, length_part hb]
    push_cast
    ring

/-- The smallest and the largest of a bin, in the order of its durations. -/
theorem part_ends (hb : b ∈ (Hist.of log4 durations).bins) :
    (part log4 durations b).getD 0 0 = b.min ∧
      (part log4 durations b).getD ((part log4 durations b).length - 1) 0 = b.max := by
  have hpart : ∀ d, d ∈ part log4 durations b ↔ d ∈ fallingIn log4 durations b.index := fun d =>
    (sorted_perm _).mem_iff
  obtain ⟨-, -, hmin, hmax, hbetween⟩ := sums_mem hb
  rw [← hpart] at hmin hmax
  have hsorted : (part log4 durations b).Pairwise (· ≤ ·) := sorted_pairwise _
  simp only [← hpart] at hbetween
  generalize part log4 durations b = l at *
  have hpos := length_pos_of_mem hmin
  rw [pairwise_iff_getElem] at hsorted
  constructor
  · obtain ⟨i, hi, heq⟩ := getElem_of_mem hmin
    rw [getD_eq_getElem _ _ hpos]
    refine le_antisymm ?_ (hbetween _ (getElem_mem hpos)).1
    rw [← heq]
    rcases Nat.eq_zero_or_pos i with rfl | hi0
    · exact le_rfl
    · exact hsorted 0 i hpos hi hi0
  · obtain ⟨i, hi, heq⟩ := getElem_of_mem hmax
    have hlast : l.length - 1 < l.length := by omega
    rw [getD_eq_getElem _ _ hlast]
    refine le_antisymm (hbetween _ (getElem_mem hlast)).2 ?_
    rw [← heq]
    rcases Nat.lt_or_eq_of_le (Nat.le_sub_one_of_lt hi) with hlt | rfl
    · exact hsorted i _ hi hlast hlt
    · exact le_rfl

/-- No duration before place `i` is in the bin of the one there. -/
def FirstOfBin (log4 : ℤ → ℤ) (s : List ℤ) (i : ℕ) : Prop :=
  ∀ j < i, index log4 (s.getD j 0) ≠ index log4 (s.getD i 0)

/-- No duration behind place `i` is in the bin of the one there. -/
def LastOfBin (log4 : ℤ → ℤ) (s : List ℤ) (i : ℕ) : Prop :=
  ∀ j < s.length, i < j → index log4 (s.getD j 0) ≠ index log4 (s.getD i 0)

/-- A rank finds the bin of the duration that has it, and its place there. -/
theorem percentileFrom_found (hmono : Monotone (index log4)) {i : ℕ} (hi : i < durations.length) :
    ∃ b ∈ (Hist.of log4 durations).bins, ∃ m k : ℕ, i = m + k ∧ (k : ℤ) < b.count ∧
      percentileFrom (i + 1) 0 (Hist.of log4 durations).bins = some (b.at k) ∧
      ∀ j : ℕ, (j : ℤ) < b.count → m + j < durations.length ∧
        (sorted durations).getD (m + j) 0 = (part log4 durations b).getD j 0 := by
  have hsum : ((Hist.of log4 durations).bins.map Bin.count).sum = durations.length := by
    rw [← Hist.total_eq, Hist.total_of]
  have hpos : ∀ b ∈ (Hist.of log4 durations).bins, 0 < b.count := fun b hb =>
    ((Hist.of log4 durations).inRange b hb).2.2
  obtain ⟨front, b, back, k, hbins, hkb, hrank, hfrom⟩ :=
    percentileFrom_spec (i + 1) 0 hpos (by omega) (by omega)
  have hmem : ∀ c ∈ front ++ b :: back, c ∈ (Hist.of log4 durations).bins := fun c hc => hbins ▸ hc
  have hb := hmem b (mem_append_right _ mem_cons_self)
  have hfront := length_parts fun c hc => hmem c (mem_append_left _ hc)
  have hlen := length_part hb
  have hsorted := flatMap_part hmono durations
  rw [hbins, flatMap_append, flatMap_cons] at hsorted
  have hlength := congrArg List.length hsorted
  rw [(sorted_perm durations).length_eq, length_append, length_append] at hlength
  refine ⟨b, hb, (front.flatMap (part log4 durations)).length, k, by omega, hkb, hfrom, ?_⟩
  intro j hj
  refine ⟨by omega, ?_⟩
  rw [← hsorted, getD_append_right _ _ _ _ (Nat.le_add_right _ _), Nat.add_sub_cancel_left,
    getD_append _ _ _ _ (by omega)]

/-- The value lies in its bin, and is the duration at the first and the last place of the bin. -/
theorem percentileFrom_value (hmono : Monotone (index log4)) {i : ℕ} (hi : i < durations.length) :
    ∃ x, percentileFrom (i + 1) 0 (Hist.of log4 durations).bins = some x ∧
      (∃ lo ∈ fallingIn log4 durations (index log4 ((sorted durations).getD i 0)),
        ∃ hi ∈ fallingIn log4 durations (index log4 ((sorted durations).getD i 0)),
        (∀ d ∈ fallingIn log4 durations (index log4 ((sorted durations).getD i 0)), lo ≤ d ∧ d ≤ hi) ∧
        lo ≤ x ∧ x ≤ hi) ∧
      (FirstOfBin log4 (sorted durations) i ∨ LastOfBin log4 (sorted durations) i →
        x = (sorted durations).getD i 0) := by
  obtain ⟨b, hb, m, k, rfl, hkb, hfrom, hat⟩ := percentileFrom_found hmono hi
  have hlen := length_part hb
  have hindex : ∀ j : ℕ, (j : ℤ) < b.count →
      index log4 ((sorted durations).getD (m + j) 0) = b.index := by
    intro j hj
    have hjl : j < (part log4 durations b).length := by omega
    rw [(hat j hj).2, getD_eq_getElem _ _ hjl]
    exact (mem_part.mp (getElem_mem hjl)).2
  obtain ⟨-, -, hmin, hmax, hbetween⟩ := sums_mem hb
  obtain ⟨hfirst, hlast⟩ := part_ends hb
  rw [hindex k hkb]
  refine ⟨b.at k, hfrom, ⟨b.min, hmin, b.max, hmax, hbetween, at_between (Int.natCast_nonneg k) hkb⟩, ?_⟩
  rw [(hat k hkb).2]
  rintro (hone | hone)
  · -- a place before it would be in the bin
    have hk : k = 0 := by
      by_contra hk
      refine hone (m + (k - 1)) (by omega) ?_
      rw [hindex k hkb, hindex (k - 1) (by omega)]
    rw [hk, hfirst]
    exact at_first b
  · have hk : (k : ℤ) = b.count - 1 := by
      by_contra hk
      obtain ⟨hlt, -⟩ := hat (k + 1) (by omega)
      rw [← (sorted_perm durations).length_eq] at hlt
      refine hone (m + (k + 1)) hlt (by omega) ?_
      rw [hindex k hkb, hindex (k + 1) (by omega)]
    rcases Nat.eq_zero_or_pos k with rfl | hkpos
    · rw [hfirst]
      exact at_first b
    · rw [show k = (part log4 durations b).length - 1 by omega, hlast, ← at_last (b := b) (by omega)]
      congr 1
      omega

end order

/-! ### Percentiles -/

theorem rankOf_eq {p : ℚ} (hp : 0 < p) (n : ℕ) :
    rankOf p n = min (max (round (p / 100 * n)) 1) n := by
  have hx : 0 ≤ p / 100 * n := mul_nonneg (div_nonneg hp.le (by norm_num)) (Nat.cast_nonneg n)
  rw [rankOf, truncate, round, Int.cast_natCast, if_pos (by linarith), if_pos hx]

theorem rankOf_mono {p q : ℚ} (hp : 0 < p) (hpq : p ≤ q) (n : ℕ) : rankOf p n ≤ rankOf q n := by
  have hx : 0 ≤ p / 100 * n := mul_nonneg (div_nonneg hp.le (by norm_num)) (Nat.cast_nonneg n)
  have hle : p / 100 * n ≤ q / 100 * n :=
    mul_le_mul_of_nonneg_right (div_le_div_of_nonneg_right hpq (by norm_num)) (Nat.cast_nonneg n)
  rw [rankOf_eq hp, rankOf_eq (hp.trans_le hpq)]
  exact min_le_min_right _ (max_le_max_right _ (round_mono hx hle))

/-- CORRECT: when longer durations never fall in a lower bin, the loop finds the rank. The value lies
    between the smallest and the largest duration of the bin that holds the duration with the rank, is
    that duration at the first and at the last rank of the bin, and does not fall with the percentile. -/
theorem percentile_in_bin {log4 : ℤ → ℤ} (hmono : Monotone (index log4)) {durations : List ℤ}
    (hne : durations ≠ []) :
    (∀ p : ℚ, 0 < p → p ≤ 100 → ∃ i < durations.length,
      ((i : ℤ) + 1 = min (max (round (p / 100 * durations.length)) 1) durations.length) ∧
      percentileFrom (rankOf p (Hist.of log4 durations).total) 0 (Hist.of log4 durations).bins =
        some ((Hist.of log4 durations).percentile p) ∧
      (∃ lo ∈ fallingIn log4 durations (index log4 ((sorted durations).getD i 0)),
        ∃ hi ∈ fallingIn log4 durations (index log4 ((sorted durations).getD i 0)),
        (∀ d ∈ fallingIn log4 durations (index log4 ((sorted durations).getD i 0)), lo ≤ d ∧ d ≤ hi) ∧
        lo ≤ (Hist.of log4 durations).percentile p ∧ (Hist.of log4 durations).percentile p ≤ hi) ∧
      (FirstOfBin log4 (sorted durations) i ∨ LastOfBin log4 (sorted durations) i →
        (Hist.of log4 durations).percentile p = (sorted durations).getD i 0)) ∧
    ∀ p q : ℚ, 0 < p → p ≤ q → q ≤ 100 →
      (Hist.of log4 durations).percentile p ≤ (Hist.of log4 durations).percentile q := by
  have hlen : 0 < durations.length := length_pos_of_ne_nil hne
  have htotal : (Hist.of log4 durations).total = durations.length := Hist.total_of durations
  have hbounds : ∀ p : ℚ,
      1 ≤ rankOf p durations.length ∧ rankOf p durations.length ≤ durations.length := by
    intro p
    exact ⟨le_min (le_max_right _ _) (by omega), min_le_right _ _⟩
  -- the loop's value is the percentile
  have hfound : ∀ p x,
      percentileFrom (rankOf p durations.length) 0 (Hist.of log4 durations).bins = some x →
      (Hist.of log4 durations).percentile p = x := by
    intro p x hx
    rw [Hist.percentile, htotal, if_neg (by omega), hx, Option.getD_some]
  constructor
  · intro p hp _
    obtain ⟨h1, hn⟩ := hbounds p
    have hrank : (((rankOf p durations.length).toNat - 1 : ℕ) : ℤ) + 1 =
        rankOf p durations.length := by omega
    have hi : (rankOf p durations.length).toNat - 1 < durations.length := by omega
    obtain ⟨x, hx, hbin, hexact⟩ := percentileFrom_value hmono hi
    rw [hrank] at hx
    have hvalue := hfound p x hx
    rw [htotal, hvalue]
    exact ⟨_, hi, hrank.trans (rankOf_eq hp _), hx, hbin, hexact⟩
  · intro p q hp hpq _
    have hsum : ((Hist.of log4 durations).bins.map Bin.count).sum = durations.length := by
      rw [← Hist.total_eq, htotal]
    have hpos : ∀ b ∈ (Hist.of log4 durations).bins, 0 < b.count := fun b hb =>
      ((Hist.of log4 durations).inRange b hb).2.2
    obtain ⟨hp1, hpn⟩ := hbounds p
    obtain ⟨hq1, hqn⟩ := hbounds q
    obtain ⟨-, b, -, k, -, -, -, hx⟩ := percentileFrom_spec (rankOf p durations.length) 0 hpos
      (by omega) (by omega)
    obtain ⟨-, c, -, l, -, -, -, hy⟩ := percentileFrom_spec (rankOf q durations.length) 0 hpos
      (by omega) (by omega)
    rw [hfound p _ hx, hfound q _ hy]
    exact percentileFrom_mono (rankOf_mono hp hpq _) hpos (apart_bins hmono) (by omega) (by omega) hx hy

/-- The unrounded index does not fall. -/
theorem index_quarterLog_mono : Monotone (index quarterLog) := by
  intro x y hxy
  by_cases hx : x ≤ 0
  · rw [index, if_pos hx]
    exact (Hist.index_mem _ y).1
  · have hlog : quarterLog x ≤ quarterLog y := by
      have hpow : (x.toNat + 1) ^ 4 ≤ (y.toNat + 1) ^ 4 := Nat.pow_le_pow_left (by omega) 4
      refine Int.ofNat_le.mpr ((Nat.le_log2 (by positivity)).mpr ?_)
      exact (Nat.log2_self_le (by positivity)).trans hpow
    rw [index, index, if_neg hx, if_neg (by omega)]
    exact min_le_min_right _ (max_le_max_right _ hlog)

/-- Rank 2 of 16, 16 and 18, which share a bin, is read as the middle between 16 and 18. -/
theorem percentile_in_bin_middle :
    (Hist.of quarterLog [18, 16, 16]).percentile 50 = 17 ∧
      (∃ i : ℕ, i < 3 ∧ (i : ℤ) + 1 = min (max (round (50 / 100 * 3)) 1) 3 ∧
        ∃ lo ∈ [18, 16, 16], ∃ hi ∈ [18, 16, 16],
          lo ≤ (Hist.of quarterLog [18, 16, 16]).percentile 50 ∧
          (Hist.of quarterLog [18, 16, 16]).percentile 50 ≤ hi) ∧
      (Hist.of quarterLog [18, 16, 16]).percentile 50 ≤
        (Hist.of quarterLog [18, 16, 16]).percentile 99 := by
  obtain ⟨hone, hmono⟩ := percentile_in_bin index_quarterLog_mono (cons_ne_nil 18 [16, 16])
  obtain ⟨i, hi, hrank, -, ⟨lo, hlo, high, hhigh, -, hbelow, habove⟩, -⟩ :=
    hone 50 (by norm_num) (by norm_num)
  exact ⟨by decide +kernel,
    ⟨i, hi, hrank, lo, mem_of_mem_filter hlo, high, mem_of_mem_filter hhigh, hbelow, habove⟩,
    hmono 50 99 (by norm_num) (by norm_num) (by norm_num)⟩

/-- Rank 2 of three equal durations is neither the first nor the last of its bin, and the value is the
    duration all the same. -/
theorem percentile_exact_inside :
    (Hist.of quarterLog [5, 5, 5]).percentile 50 = (sorted [5, 5, 5]).getD 1 0 ∧
      rankOf 50 3 = 2 ∧ ¬FirstOfBin quarterLog (sorted [5, 5, 5]) 1 ∧
      ¬LastOfBin quarterLog (sorted [5, 5, 5]) 1 := by
  refine ⟨by decide +kernel, by decide +kernel, ?_, ?_⟩
  · intro h
    exact h 0 (by decide) (by decide +kernel)
  · intro h
    exact h 2 (by decide) (by decide) (by decide +kernel)

end Spanbarn.SpanHist
