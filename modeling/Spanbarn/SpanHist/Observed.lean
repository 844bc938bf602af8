import Mathlib.Data.List.Induction
import Spanbarn.SpanHist.Hist

/-! What the bins say about the durations that were observed.

    A histogram of durations holds, for each bin index that occurs, how many durations fell there and
    the smallest and the largest of them. In which order they came does not matter.

        durations   3  9  4  3  12          bins   3..4 │ 9..12
                                                  count 3 │ 2       -/

namespace Spanbarn.SpanHist
open List Spanbarn.Schemes

namespace Hist
variable {log4 : ℤ → ℤ}

/-- The histogram of durations, one after another. -/
def of (log4 : ℤ → ℤ) (durations : List ℤ) : Hist := durations.foldl (observe log4) 0

theorem foldl_observe (durations : List ℤ) : ∀ h : Hist,
    durations.foldl (observe log4) h = h + (durations.map (single log4)).sum := by
  induction durations with
  | nil =>
    intro h
    exact (add_zero h).symm
  | cons d durations ih =>
    intro h
    rw [foldl_cons, ih, observe_eq, map_cons, sum_cons, add_assoc]

theorem of_eq (durations : List ℤ) : of log4 durations = (durations.map (single log4)).sum := by
  rw [of, foldl_observe, zero_add]

theorem of_append (a b : List ℤ) : of log4 (a ++ b) = of log4 a + of log4 b := by
  rw [of_eq, of_eq, of_eq, map_append, sum_append]

theorem of_perm {a b : List ℤ} (h : a.Perm b) : of log4 a = of log4 b := by
  rw [of_eq, of_eq]
  exact (h.map _).sum_eq

theorem of_snoc (durations : List ℤ) (d : ℤ) :
    of log4 (durations ++ [d]) = (of log4 durations).observe log4 d := by
  rw [of, foldl_append]
  rfl

theorem total_of (durations : List ℤ) : (of log4 durations).total = durations.length := by
  induction durations using List.reverseRecOn with
  | nil => rfl
  | append_singleton durations d ih =>
    have htotal : ((of log4 durations).observe log4 d).total = (of log4 durations).total + 1 := rfl
    rw [of_snoc, htotal, ih, length_append]
    simp

end Hist

/-- One duration as a bin of its index. -/
def point (k d : ℤ) : Bin := { index := k, count := 1, min := d, max := d, min_le_max := Int.le_refl d }

/-- The bin that holds exactly the durations `ds`; none for none. -/
def Sums (k : ℤ) (ds : List ℤ) : Option Bin → Prop
  | none => ds = []
  | some b => b.index = k ∧ b.count = ds.length ∧ b.min ∈ ds ∧ b.max ∈ ds ∧
      ∀ d ∈ ds, b.min ≤ d ∧ d ≤ b.max

theorem Sums.snoc {k : ℤ} {ds : List ℤ} {o : Option Bin} (h : Sums k ds o) (d : ℤ) :
    Sums k (ds ++ [d]) (binMix.join o (some (point k d))) := by
  cases o with
  | none =>
    obtain rfl : ds = [] := h
    refine ⟨rfl, rfl, mem_cons_self, mem_cons_self, fun x hx => ?_⟩
    rw [nil_append, mem_singleton] at hx
    exact ⟨hx ▸ le_rfl, hx ▸ le_rfl⟩
  | some b =>
    obtain ⟨hk, hcount, hmin, hmax, hbetween⟩ := h
    refine ⟨hk, ?_, ?_, ?_, ?_⟩
    · change b.count + 1 = _
      rw [hcount, length_append]
      simp
    · change min b.min d ∈ ds ++ [d]
      rcases min_choice b.min d with h | h
      · rw [h]
        exact mem_append_left _ hmin
      · rw [h]
        exact mem_append_right _ mem_cons_self
    · change max b.max d ∈ ds ++ [d]
      rcases max_choice b.max d with h | h
      · rw [h]
        exact mem_append_left _ hmax
      · rw [h]
        exact mem_append_right _ mem_cons_self
    · intro x hx
      change min b.min d ≤ x ∧ x ≤ max b.max d
      rcases mem_append.mp hx with hx | hx
      · obtain ⟨hlo, hhi⟩ := hbetween x hx
        exact ⟨(min_le_left _ _).trans hlo, hhi.trans (le_max_left _ _)⟩
      · rw [mem_singleton.mp hx]
        exact ⟨min_le_right _ _, le_max_right _ _⟩

/-- The durations of a bin. -/
def fallingIn (log4 : ℤ → ℤ) (durations : List ℤ) (k : ℤ) : List ℤ :=
  durations.filter fun d => index log4 d = k

/-- RUN: each bin sums up the durations that fell in it. -/
theorem sums_rowAt (log4 : ℤ → ℤ) (durations : List ℤ) (k : ℤ) :
    Sums k (fallingIn log4 durations k) (rowAt binMix.key k (Hist.of log4 durations).bins) := by
  induction durations using List.reverseRecOn with
  | nil => exact rfl
  | append_singleton durations d ih =>
    have hrange := Hist.index_mem log4 d
    have hrow : rowAt binMix.key k (Hist.of log4 (durations ++ [d])).bins =
        if index log4 d = k then binMix.join (rowAt binMix.key k (Hist.of log4 durations).bins)
          (some (point (index log4 d) d))
        else rowAt binMix.key k (Hist.of log4 durations).bins := by
      rw [Hist.of_snoc, Hist.observe, Hist.bins_add _ ⟨hrange.1, hrange.2, one_pos⟩]
      exact Mix.rowAt_insert _ _ (Hist.of log4 durations).ascending
    rw [hrow, fallingIn, filter_append]
    by_cases hk : index log4 d = k
    · have hd : [d].filter (fun d => decide (index log4 d = k)) = [d] := by simp [hk]
      rw [if_pos hk, hd, hk]
      exact ih.snoc d
    · have hd : [d].filter (fun d => decide (index log4 d = k)) = [] := by simp [hk]
      rw [if_neg hk, hd, append_nil]
      exact ih

theorem sums_mem {log4 : ℤ → ℤ} {durations : List ℤ} {b : Bin}
    (hb : b ∈ (Hist.of log4 durations).bins) :
    Sums b.index (fallingIn log4 durations b.index) (some b) := by
  have hrow := sums_rowAt log4 durations b.index
  have hat : rowAt binMix.key b.index (Hist.of log4 durations).bins = some b :=
    rowAt_of_mem (Hist.of log4 durations).ascending.keyed hb
  rwa [hat] at hrow

/-- A duration that was observed is in a bin. -/
theorem bin_of_mem {log4 : ℤ → ℤ} {durations : List ℤ} {d : ℤ} (hd : d ∈ durations) :
    ∃ b ∈ (Hist.of log4 durations).bins, b.index = index log4 d := by
  have hrow := sums_rowAt log4 durations (index log4 d)
  have hmem : d ∈ fallingIn log4 durations (index log4 d) :=
    mem_filter.mpr ⟨hd, decide_eq_true rfl⟩
  cases ho : rowAt binMix.key (index log4 d) (Hist.of log4 durations).bins with
  | none =>
    rw [ho] at hrow
    rw [show fallingIn log4 durations (index log4 d) = [] from hrow] at hmem
    cases hmem
  | some b => exact ⟨b, mem_of_rowAt ho⟩

end Spanbarn.SpanHist
