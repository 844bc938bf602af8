import Mathlib.Algebra.Order.Group.Unbundled.Int
import Mathlib.Data.Int.ConditionallyCompleteOrder
import Mathlib.Data.Int.Notation
import Mathlib.Order.Lattice
import Spanbarn.Schemes.Sorted
import Spanbarn.Schemes.Varint

/-! Duration histograms: quarter-octave bins, their merge and their encoding.

    A histogram is a list of non-empty bins in ascending index order. A duration falls in one bin;
    folding durations and merging histograms only ever adds bins of equal index, so histograms are a
    commutative monoid. `Encode` writes the bins as bytes, `Decode` reads them back:

        1 │ index, count, min, max − min │ index, count, min, max − min │ …

    Integers are unbounded here. The bin of a duration is computed in floating point, so the index
    function is a parameter: nothing depends on which bin a duration falls in. -/

namespace Spanbarn.SpanHist
open List Spanbarn.Schemes

/-- The number of bins. -/
def bins : ℤ := 160

/-- Keep a bin index inside the bins. -/
def clamp (i : ℤ) : ℤ := min (max i 0) (bins - 1)

theorem clamp_mem (i : ℤ) : 0 ≤ clamp i ∧ clamp i < bins := by
  unfold clamp bins
  omega

/-- The bin of a duration in microseconds; `log4` is `int(math.Log2(float64(us)+1) * 4)`. -/
def index (log4 : ℤ → ℤ) (us : ℤ) : ℤ := if us ≤ 0 then 0 else clamp (log4 us)

/-- The parameter without rounding, `⌊4 log₂ (us + 1)⌋`: what it is on small durations. -/
def quarterLog (us : ℤ) : ℤ := Nat.log2 ((us.toNat + 1) ^ 4)

/-- How many durations fell in a bin, and the smallest and largest of them. -/
structure Bin where
  index : ℤ
  count : ℤ
  min : ℤ
  max : ℤ
  min_le_max : min ≤ max
  deriving DecidableEq, Repr

/-- Two bins of one index as one. -/
def Bin.fold (a b : Bin) : Bin where
  index := a.index
  count := a.count + b.count
  min := Min.min a.min b.min
  max := Max.max a.max b.max
  min_le_max := (min_le_left _ _).trans (a.min_le_max.trans (le_max_left _ _))

theorem Bin.ext_iff' {a b : Bin} :
    a = b ↔ a.index = b.index ∧ a.count = b.count ∧ a.min = b.min ∧ a.max = b.max := by
  cases a
  cases b
  simp

/-- The bin with its index inside the range. -/
def Bin.clamped (b : Bin) : Bin := { b with index := clamp b.index }

theorem Bin.clamped_inRange {b : Bin} (h : 0 < b.count) :
    0 ≤ b.clamped.index ∧ b.clamped.index < bins ∧ 0 < b.clamped.count :=
  ⟨(clamp_mem b.index).1, (clamp_mem b.index).2, h⟩

def binMix : Mix Bin ℤ where
  key := Bin.index
  mix := Bin.fold
  key_mix := fun _ => rfl
  comm := fun h => Bin.ext_iff'.mpr ⟨h, add_comm _ _, min_comm _ _, max_comm _ _⟩
  assoc := fun _ _ => Bin.ext_iff'.mpr ⟨rfl, add_assoc _ _ _, min_assoc _ _ _, max_assoc _ _ _⟩

/-- A sparse histogram: ascending bins inside the range, none of them empty, and their total. -/
structure Hist where
  bins : List Bin
  total : ℤ
  ascending : binMix.Ascending bins
  inRange : ∀ b ∈ bins, 0 ≤ b.index ∧ b.index < SpanHist.bins ∧ 0 < b.count
  total_eq : total = (bins.map Bin.count).sum

namespace Hist

/-- The bins determine the histogram. -/
theorem ext_bins {a b : Hist} (h : a.bins = b.bins) : a = b := by
  cases a
  cases b
  simp_all

instance : DecidableEq Hist := fun a b =>
  decidable_of_iff (a.bins = b.bins) ⟨ext_bins, fun h => h ▸ rfl⟩

def empty : Hist where
  bins := []
  total := 0
  ascending := .nil
  inRange := forall_mem_nil _
  total_eq := rfl

/-! ### Adding bins -/

theorem inRange_insert {b : Bin} (hb : 0 ≤ b.index ∧ b.index < SpanHist.bins ∧ 0 < b.count)
    {l : List Bin} (hl : ∀ b ∈ l, 0 ≤ b.index ∧ b.index < SpanHist.bins ∧ 0 < b.count) :
    ∀ x ∈ binMix.insert b l, 0 ≤ x.index ∧ x.index < SpanHist.bins ∧ 0 < x.count := by
  intro x hx
  rcases Mix.mem_insert hx with rfl | hx | ⟨a, ha, -, rfl⟩
  · exact hb
  · exact hl x hx
  · obtain ⟨h0, h1, h2⟩ := hl a ha
    exact ⟨h0, h1, add_pos h2 hb.2.2⟩

theorem count_insert (b : Bin) : ∀ l : List Bin,
    ((binMix.insert b l).map Bin.count).sum = (l.map Bin.count).sum + b.count
  | [] => by simp [Mix.insert]
  | a :: l => by
    rw [Mix.insert]
    split
    · simp only [map_cons, sum_cons]
      omega
    · split
      · simp only [map_cons, sum_cons, binMix, Bin.fold]
        omega
      · simp only [map_cons, sum_cons, count_insert b l]
        omega

/-- Fold a bin into the histogram. -/
def add (h : Hist) (b : Bin) : Hist :=
  if hc : b.count ≤ 0 then h
  else
    { bins := binMix.insert b.clamped h.bins
      total := h.total + b.count
      ascending := Mix.ascending_insert b.clamped h.ascending
      inRange := inRange_insert (Bin.clamped_inRange (not_le.mp hc)) h.inRange
      total_eq := by rw [h.total_eq, count_insert]; rfl }

/-- Fold every bin of `o` into `h`. -/
def merge (h o : Hist) : Hist := o.bins.foldl add h

/-- Fold one duration. -/
def observe (log4 : ℤ → ℤ) (h : Hist) (us : ℤ) : Hist :=
  h.add { index := index log4 us, count := 1, min := us, max := us, min_le_max := le_rfl }

theorem clamp_eq {i : ℤ} (h : 0 ≤ i ∧ i < SpanHist.bins) : clamp i = i := by
  unfold clamp
  unfold SpanHist.bins at *
  omega

theorem bins_add (h : Hist) {b : Bin} (hb : 0 ≤ b.index ∧ b.index < SpanHist.bins ∧ 0 < b.count) :
    (h.add b).bins = binMix.insert b h.bins := by
  have hclamp : b.clamped = b := Bin.ext_iff'.mpr ⟨clamp_eq ⟨hb.1, hb.2.1⟩, rfl, rfl, rfl⟩
  rw [add, dif_neg (not_le.mpr hb.2.2)]
  exact congrArg (fun b => binMix.insert b h.bins) hclamp

theorem bins_merge (h o : Hist) : (h.merge o).bins = binMix.mixAll h.bins o.bins := by
  have hfold : ∀ (l : List Bin) (h : Hist),
      (∀ b ∈ l, 0 ≤ b.index ∧ b.index < SpanHist.bins ∧ 0 < b.count) →
      (l.foldl add h).bins = binMix.mixAll h.bins l := by
    intro l
    induction l with
    | nil => exact fun h _ => rfl
    | cons b l ih =>
      intro h hl
      rw [foldl_cons, ih _ fun x hx => hl x (mem_cons_of_mem _ hx),
        bins_add h (hl b mem_cons_self)]
      rfl
  exact hfold o.bins h o.inRange

/-! ### The monoid -/

instance : Zero Hist := ⟨empty⟩

instance : Add Hist := ⟨merge⟩

theorem add_def (a b : Hist) : a + b = a.merge b := rfl

instance : AddCommMonoid Hist where
  add_assoc a b c := by
    refine ext_bins ?_
    rw [add_def, add_def, add_def, add_def, bins_merge, bins_merge, bins_merge, bins_merge]
    exact Mix.mixAll_assoc a.ascending b.ascending c.ascending
  zero_add a := ext_bins ((bins_merge 0 a).trans (Mix.nil_mixAll a.ascending))
  add_zero a := ext_bins ((bins_merge a 0).trans rfl)
  add_comm a b := by
    refine ext_bins ?_
    rw [add_def, add_def, bins_merge, bins_merge]
    exact Mix.mixAll_comm a.ascending b.ascending
  nsmul := nsmulRec

/-- The histogram of one duration. -/
def single (log4 : ℤ → ℤ) (us : ℤ) : Hist := observe log4 0 us

theorem index_mem (log4 : ℤ → ℤ) (us : ℤ) : 0 ≤ index log4 us ∧ index log4 us < SpanHist.bins := by
  unfold index
  split
  · exact ⟨le_rfl, by decide⟩
  · exact clamp_mem _

/-- Observing a duration is merging in its histogram. -/
theorem observe_eq (log4 : ℤ → ℤ) (h : Hist) (us : ℤ) : h.observe log4 us = h + single log4 us := by
  have hb := index_mem log4 us
  refine ext_bins ?_
  rw [add_def, bins_merge, single, observe, observe, bins_add _ ⟨hb.1, hb.2, one_pos⟩,
    bins_add _ ⟨hb.1, hb.2, one_pos⟩]
  rfl

end Hist

/-! ### The encoding -/

/-- The first byte of every encoded histogram. -/
def encodingV1 : UInt8 := 1

/-- Index, count, min and width. -/
def Bin.encode (b : Bin) : List UInt8 :=
  UInt8.ofNat b.index.toNat ::
    (uvarint b.count.toNat ++ (varint b.min ++ uvarint (b.max - b.min).toNat))

def Hist.encode (h : Hist) : List UInt8 := encodingV1 :: h.bins.flatMap Bin.encode

/-- The loop of `Decode`: bins with an index above `last`. Every round takes a byte at least, so as
    many rounds as there are bytes are enough. -/
def decodeBins : ℕ → ℤ → List UInt8 → Option (List Bin)
  | _, _, [] => some []
  | 0, _, _ :: _ => none
  | fuel + 1, last, b :: buf =>
    let idx : ℤ := b.toNat
    if bins ≤ idx ∨ idx ≤ last then none
    else do
      let (count, buf) ← readUvarint buf
      if count = 0 then none
      else do
        let (lo, buf) ← readVarint buf
        let (width, buf) ← readUvarint buf
        let rest ← decodeBins fuel idx buf
        some ({ index := idx, count, min := lo, max := lo + width, min_le_max := by omega } :: rest)

theorem decodeBins_cons {fuel : ℕ} {last : ℤ} {b : UInt8} {buf : List UInt8} {l : List Bin}
    (h : decodeBins (fuel + 1) last (b :: buf) = some l) :
    ∃ a rest buf', l = a :: rest ∧ last < a.index ∧ 0 ≤ a.index ∧ a.index < bins ∧ 0 < a.count ∧
      decodeBins fuel a.index buf' = some rest := by
  rw [decodeBins] at h
  simp only at h
  split at h
  · cases h
  · rename_i hidx
    obtain ⟨⟨count, buf₁⟩, -, h⟩ := Option.bind_eq_some_iff.mp h
    simp only at h
    split at h
    · cases h
    · rename_i hcount
      obtain ⟨⟨lo, buf₂⟩, -, h⟩ := Option.bind_eq_some_iff.mp h
      obtain ⟨⟨width, buf₃⟩, -, h⟩ := Option.bind_eq_some_iff.mp h
      obtain ⟨rest, hrest, h⟩ := Option.bind_eq_some_iff.mp h
      cases h
      push Not at hidx
      exact ⟨_, rest, buf₃, rfl, hidx.2, Int.natCast_nonneg _, hidx.1,
        Int.natCast_pos.mpr (Nat.pos_of_ne_zero hcount), hrest⟩

/-- What is decoded is in range, and ascends from `last` on. -/
theorem decodeBins_spec : ∀ {fuel : ℕ} {last : ℤ} {buf : List UInt8} {l : List Bin},
    decodeBins fuel last buf = some l →
    binMix.Ascending l ∧ (∀ b ∈ l, last < b.index) ∧
      ∀ b ∈ l, 0 ≤ b.index ∧ b.index < bins ∧ 0 < b.count
  | fuel, last, [], l, h => by
    have hl : l = [] := by
      cases fuel <;> (rw [decodeBins] at h; cases h; rfl)
    subst hl
    exact ⟨.nil, forall_mem_nil _, forall_mem_nil _⟩
  | 0, last, b :: buf, l, h => by cases h
  | fuel + 1, last, b :: buf, l, h => by
    obtain ⟨a, rest, buf', rfl, hlast, h0, h1, h2, hrest⟩ := decodeBins_cons h
    obtain ⟨hasc, hgt, hrange⟩ := decodeBins_spec hrest
    refine ⟨pairwise_cons.mpr ⟨hgt, hasc⟩, ?_, ?_⟩
    · intro x hx
      rcases mem_cons.mp hx with rfl | hx
      · exact hlast
      · exact hlast.trans (hgt x hx)
    · intro x hx
      rcases mem_cons.mp hx with rfl | hx
      · exact ⟨h0, h1, h2⟩
      · exact hrange x hx

/-- Read a histogram; `none` for a corrupt encoding. -/
def decode : List UInt8 → Option Hist
  | [] => none
  | v :: buf =>
    if v = encodingV1 then
      match h : decodeBins buf.length (-1) buf with
      | none => none
      | some l => some
        { bins := l
          total := (l.map Bin.count).sum
          ascending := (decodeBins_spec h).1
          inRange := (decodeBins_spec h).2.2
          total_eq := rfl }
    else none

theorem decodeBins_encode {last : ℤ} : ∀ {l : List Bin} {fuel : ℕ}, l.length ≤ fuel →
    binMix.Ascending l → (∀ b ∈ l, last < b.index) →
    (∀ b ∈ l, 0 ≤ b.index ∧ b.index < bins ∧ 0 < b.count) →
    decodeBins fuel last (l.flatMap Bin.encode) = some l
  | [], fuel, _, _, _, _ => by cases fuel <;> rfl
  | b :: l, 0, h, _, _, _ => by simp at h
  | b :: l, fuel + 1, h, hasc, hlast, hrange => by
    obtain ⟨hhead, htail⟩ := pairwise_cons.mp hasc
    obtain ⟨h0, h1, h2⟩ := hrange b mem_cons_self
    have hbyte : ((UInt8.ofNat b.index.toNat).toNat : ℤ) = b.index := by
      unfold bins at h1
      rw [toNat_ofNat (by omega)]
      omega
    have hrest : decodeBins fuel b.index (l.flatMap Bin.encode) = some l :=
      decodeBins_encode (Nat.le_of_succ_le_succ h) htail hhead
        fun x hx => hrange x (mem_cons_of_mem _ hx)
    have hcount : b.count.toNat ≠ 0 := by omega
    have hidx : ¬(bins ≤ b.index ∨ b.index ≤ last) :=
      not_or.mpr ⟨not_le.mpr h1, not_le.mpr (hlast b mem_cons_self)⟩
    rw [flatMap_cons, Bin.encode, cons_append, decodeBins, append_assoc,
      append_assoc]
    simp only [hbyte, if_neg hidx, readUvarint_uvarint, readVarint_varint, Option.bind_eq_bind,
      Option.bind_some, if_neg hcount, hrest, Option.some.injEq, List.cons.injEq, and_true]
    have hmax := b.min_le_max
    refine Bin.ext_iff'.mpr ⟨rfl, ?_, rfl, ?_⟩
    · simp only
      omega
    · simp only
      omega

theorem length_flatMap_encode : ∀ l : List Bin, l.length ≤ (l.flatMap Bin.encode).length
  | [] => Nat.le_refl _
  | b :: l => by
    have := length_flatMap_encode l
    simp only [flatMap_cons, length_append, length_cons, Bin.encode]
    omega

/-- Decoding an encoded histogram gives it back. -/
theorem decode_encode (h : Hist) : decode h.encode = some h := by
  have hdec : decodeBins (h.bins.flatMap Bin.encode).length (-1) (h.bins.flatMap Bin.encode) =
      some h.bins :=
    decodeBins_encode (length_flatMap_encode _) h.ascending
      (fun b hb => lt_of_lt_of_le (by decide) (h.inRange b hb).1) h.inRange
  rw [Hist.encode, decode, if_pos rfl]
  split
  · rename_i hnone
    rw [hdec] at hnone
    cases hnone
  · rename_i l hl
    exact congrArg some (Hist.ext_bins (Option.some.inj (hl.symm.trans hdec)))

/-- Merge two encoded histograms. -/
def mergeEncoded (a b : List UInt8) : Option (List UInt8) := do
  let ha ← decode a
  let hb ← decode b
  some (ha.merge hb).encode

/-- The SQL function `span_hist_merge`: a side that does not decode is dropped. -/
def spanHistMerge (a b : List UInt8) : List UInt8 :=
  match mergeEncoded a b with
  | some merged => merged
  | none => if (decode a).isNone then b else a

end Spanbarn.SpanHist
