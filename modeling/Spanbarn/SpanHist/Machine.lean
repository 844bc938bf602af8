import Mathlib.Algebra.Order.BigOperators.Group.List
import Spanbarn.Schemes.Numbers
import Spanbarn.SpanHist.Observed

/-! Histograms in 64-bit integers.

    The program's histogram is a slice of bins and a total, all signed 64-bit integers, and nothing keeps
    them in shape but the functions that write them. As long as no count overflows, folding durations
    gives the unbounded histogram of `Hist`; reading bytes gives one as long as what is read fits.

        Hist64  ── add, observe, merge ──▶  Hist64
          ▲ raw                               ▲ raw
        Hist    ── add, observe, merge ──▶  Hist          -/

namespace Spanbarn.SpanHist
open List Spanbarn.Schemes

/-- A bin as the program holds it; nothing keeps its fields in range. -/
structure Bin64 where
  index : ℤ
  count : ℤ
  min : ℤ
  max : ℤ
  deriving DecidableEq, Repr

/-- A histogram as the program holds it. -/
structure Hist64 where
  bins : List Bin64 := []
  total : ℤ := 0
  deriving DecidableEq, Repr

/-! ### Folding -/

/-- Two bins of one index as one. -/
def Bin64.fold (a b : Bin64) : Bin64 :=
  ⟨a.index, wrap64 (a.count + b.count), Min.min a.min b.min, Max.max a.max b.max⟩

/-- Put a bin at its place, or fold it into the bin of its index. -/
def Bin64.insert (b : Bin64) : List Bin64 → List Bin64
  | [] => [b]
  | a :: rest =>
    if b.index < a.index then b :: a :: rest
    else if b.index = a.index then a.fold b :: rest
    else a :: insert b rest

/-- `Add`: an empty bin is left out, an index outside the range goes to its end. -/
def Hist64.add (h : Hist64) (b : Bin64) : Hist64 :=
  if b.count ≤ 0 then h
  else ⟨Bin64.insert { b with index := clamp b.index } h.bins, wrap64 (h.total + b.count)⟩

/-- `Observe`: a bin of one duration. -/
def Hist64.observe (log4 : ℤ → ℤ) (h : Hist64) (us : ℤ) : Hist64 := h.add ⟨index log4 us, 1, us, us⟩

/-- `Merge`: the bins of the other, one by one. -/
def Hist64.merge (h o : Hist64) : Hist64 := o.bins.foldl Hist64.add h

/-! ### Bytes -/

/-- The index, the count, the least duration, and how far the greatest lies above it. -/
def Bin64.encode (b : Bin64) : List UInt8 :=
  UInt8.ofNat b.index.toNat ::
    (uvarint (b.count % 2 ^ 64).toNat ++
      (varint b.min ++ uvarint ((b.max - b.min) % 2 ^ 64).toNat))

/-- `Encode`: the version, and the bins. -/
def Hist64.encode (h : Hist64) : List UInt8 := encodingV1 :: h.bins.flatMap Bin64.encode

/-- What is read of a bin. -/
structure ReadBin where
  index : ℤ
  count : ℕ
  lo : ℤ
  width : ℕ
  deriving DecidableEq, Repr

/-- The bin that was read; conversions and the sum wrap around. -/
def ReadBin.bin (r : ReadBin) : Bin64 :=
  ⟨r.index, wrap64 r.count, r.lo, wrap64 (r.lo + wrap64 r.width)⟩

theorem count_mk (index count min max : ℤ) : (Bin64.mk index count min max).count = count := rfl

theorem bin_count (r : ReadBin) : r.bin.count = wrap64 r.count := by
  rw [ReadBin.bin, count_mk]

/-- The reads of the loop of `Decode`. -/
def readBins : ℕ → ℤ → List UInt8 → Option (List ReadBin)
  | _, _, [] => some []
  | 0, _, _ :: _ => none
  | fuel + 1, last, b :: buf =>
    let idx : ℤ := b.toNat
    if bins ≤ idx ∨ idx ≤ last then none
    else do
      let (count, buf) ← readUvarint64 buf
      if count = 0 then none
      else do
        let (lo, buf) ← readVarint64 buf
        let (width, buf) ← readUvarint64 buf
        let rest ← readBins fuel idx buf
        some (⟨idx, count, lo, width⟩ :: rest)

/-- The reads of `Decode`, after the version. -/
def readHist : List UInt8 → Option (List ReadBin)
  | [] => none
  | v :: buf => if v = encodingV1 then readBins buf.length (-1) buf else none

/-- The bins that were read, and their total. -/
def histOf (l : List ReadBin) : Hist64 :=
  ⟨l.map ReadBin.bin, l.foldl (fun total r => wrap64 (total + wrap64 r.count)) 0⟩

/-- `Decode`. -/
def decode64 (buf : List UInt8) : Option Hist64 := (readHist buf).map histOf

/-- `MergeEncoded`. -/
def mergeEncoded64 (a b : List UInt8) : Option (List UInt8) := do
  let ha ← decode64 a
  let hb ← decode64 b
  some (ha.merge hb).encode

/-! ### Well-formed histograms -/

/-- Ascending bins inside the range, none of them empty, and their total. -/
structure Hist64.WellFormed (h : Hist64) : Prop where
  ascending : h.bins.Pairwise fun a b => a.index < b.index
  inRange : ∀ b ∈ h.bins, 0 ≤ b.index ∧ b.index < SpanHist.bins ∧ 0 < b.count ∧ b.min ≤ b.max
  total : h.total = (h.bins.map Bin64.count).sum

/-- The durations and the total are 64-bit integers. -/
def Hist64.Fits (h : Hist64) : Prop :=
  (∀ b ∈ h.bins, -2 ^ 63 ≤ b.min ∧ b.max < 2 ^ 63) ∧ h.total < 2 ^ 63

instance (h : Hist64) : Decidable h.Fits := by unfold Hist64.Fits; infer_instance

/-- A bin of the abstract histogram as the program holds it. -/
def Bin.raw (b : Bin) : Bin64 := ⟨b.index, b.count, b.min, b.max⟩

/-- The histogram as the program holds it. -/
def Hist.raw (h : Hist) : Hist64 := ⟨h.bins.map Bin.raw, h.total⟩

theorem Hist.raw_wellFormed (h : Hist) : h.raw.WellFormed where
  ascending := pairwise_map.mpr h.ascending
  inRange := by
    intro b hb
    obtain ⟨a, ha, rfl⟩ := mem_map.mp hb
    obtain ⟨h0, h1, h2⟩ := h.inRange a ha
    exact ⟨h0, h1, h2, a.min_le_max⟩
  total := by
    rw [Hist.raw, map_map]
    exact h.total_eq

/-! ### Folding without overflow -/

theorem sum_counts_nonneg {l : List Bin} (hpos : ∀ a ∈ l, 0 < a.count) :
    0 ≤ (l.map Bin.count).sum := by
  refine sum_nonneg fun c hc => ?_
  obtain ⟨a, ha, rfl⟩ := mem_map.mp hc
  exact (hpos a ha).le

theorem count_le_sum {b : Bin} : ∀ {l : List Bin}, (∀ a ∈ l, 0 < a.count) → b ∈ l →
    b.count ≤ (l.map Bin.count).sum := by
  intro l
  induction l with
  | nil =>
    intro _ hb
    cases hb
  | cons a l ih =>
    intro hpos hb
    obtain ⟨ha, hpos⟩ := forall_mem_cons.mp hpos
    have hrest := sum_counts_nonneg hpos
    rw [map_cons, sum_cons]
    rcases mem_cons.mp hb with rfl | hb
    · omega
    · have := ih hpos hb
      omega

theorem Hist.total_nonneg (h : Hist) : 0 ≤ h.total := by
  rw [h.total_eq]
  exact sum_counts_nonneg fun a ha => (h.inRange a ha).2.2

theorem Hist.count_le_total (h : Hist) {b : Bin} (hb : b ∈ h.bins) : b.count ≤ h.total := by
  rw [h.total_eq]
  exact count_le_sum (fun a ha => (h.inRange a ha).2.2) hb

theorem insert_raw {b : Bin} : ∀ {l : List Bin},
    (∀ a ∈ l, a.index = b.index → wrap64 (a.count + b.count) = a.count + b.count) →
    Bin64.insert b.raw (l.map Bin.raw) = (binMix.insert b l).map Bin.raw := by
  intro l
  induction l with
  | nil =>
    intro _
    rfl
  | cons a l ih =>
    intro hfits
    rw [map_cons, Bin64.insert, Mix.insert]
    by_cases hlt : b.index < a.index
    · rw [if_pos (show b.raw.index < a.raw.index from hlt),
        if_pos (show binMix.key b < binMix.key a from hlt)]
      rfl
    · rw [if_neg (show ¬b.raw.index < a.raw.index from hlt),
        if_neg (show ¬binMix.key b < binMix.key a from hlt)]
      by_cases heq : b.index = a.index
      · rw [if_pos (show b.raw.index = a.raw.index from heq),
          if_pos (show binMix.key b = binMix.key a from heq), map_cons]
        refine congrArg (fun c => c :: l.map Bin.raw) ?_
        change Bin64.mk _ (wrap64 (a.count + b.count)) _ _ = _
        rw [hfits a mem_cons_self heq.symm]
        rfl
      · rw [if_neg (show ¬b.raw.index = a.raw.index from heq),
          if_neg (show ¬binMix.key b = binMix.key a from heq), map_cons,
          ih fun x hx => hfits x (mem_cons_of_mem _ hx)]

/-- STEP: a bin is folded, and no count overflows. -/
theorem add_raw {h : Hist} {b : Bin} (hb : 0 < b.count) (hfits : h.total + b.count < 2 ^ 63) :
    h.raw.add b.raw = (h.add b).raw := by
  have htotal := h.total_nonneg
  rw [Hist64.add, Hist.add, if_neg (show ¬b.raw.count ≤ 0 from not_le.mpr hb), dif_neg (not_le.mpr hb)]
  have hbins : Bin64.insert b.clamped.raw (h.bins.map Bin.raw) =
      (binMix.insert b.clamped h.bins).map Bin.raw := by
    refine insert_raw fun a ha _ => wrap64_eq ?_ ?_
    · have := (h.inRange a ha).2.2
      change -2 ^ 63 ≤ a.count + b.count
      omega
    · have := h.count_le_total ha
      change a.count + b.count < 2 ^ 63
      omega
  have hsum : wrap64 (h.total + b.count) = h.total + b.count := wrap64_eq (by omega) hfits
  change Hist64.mk (Bin64.insert b.clamped.raw (h.bins.map Bin.raw)) (wrap64 (h.total + b.count)) = _
  rw [hbins, hsum]
  rfl

theorem observe_raw {log4 : ℤ → ℤ} {h : Hist} (us : ℤ) (hfits : h.total + 1 < 2 ^ 63) :
    h.raw.observe log4 us = (h.observe log4 us).raw :=
  add_raw (b := point (index log4 us) us) one_pos hfits

/-- RUN: all bins of another histogram. -/
theorem merge_raw {h o : Hist} (hfits : h.total + o.total < 2 ^ 63) :
    h.raw.merge o.raw = (h + o).raw := by
  have hfold : ∀ (l : List Bin) (h : Hist), (∀ b ∈ l, 0 < b.count) →
      h.total + (l.map Bin.count).sum < 2 ^ 63 →
      (l.map Bin.raw).foldl Hist64.add h.raw = (l.foldl Hist.add h).raw := by
    intro l
    induction l with
    | nil =>
      intro h _ _
      rfl
    | cons b l ih =>
      intro h hpos hfits
      obtain ⟨hb, hpos⟩ := forall_mem_cons.mp hpos
      have hrest := sum_counts_nonneg hpos
      rw [map_cons, sum_cons] at hfits
      rw [map_cons, foldl_cons, foldl_cons, add_raw hb (by omega)]
      refine ih _ hpos ?_
      have htotal : (h.add b).total = h.total + b.count := by
        rw [Hist.add, dif_neg (not_le.mpr hb)]
      rw [htotal]
      omega
  exact hfold o.bins h (fun b hb => (o.inRange b hb).2.2) (o.total_eq ▸ hfits)

/-! ### The round trip -/

theorem exists_raw_bins : ∀ {l : List Bin64}, (∀ b ∈ l, b.min ≤ b.max) →
    ∃ bs : List Bin, bs.map Bin.raw = l := by
  intro l
  induction l with
  | nil =>
    intro _
    exact ⟨[], rfl⟩
  | cons b l ih =>
    intro hle
    obtain ⟨hb, hle⟩ := forall_mem_cons.mp hle
    obtain ⟨bs, rfl⟩ := ih hle
    exact ⟨⟨b.index, b.count, b.min, b.max, hb⟩ :: bs, rfl⟩

/-- A well-formed histogram is an unbounded one. -/
theorem Hist64.WellFormed.exists_raw {r : Hist64} (h : r.WellFormed) : ∃ u : Hist, u.raw = r := by
  obtain ⟨bins, total⟩ := r
  obtain ⟨bs, rfl⟩ := exists_raw_bins fun b hb => (h.inRange b hb).2.2.2
  have hasc := h.ascending
  rw [pairwise_map] at hasc
  refine ⟨⟨bs, total, hasc, ?_, ?_⟩, rfl⟩
  · intro b hb
    obtain ⟨h0, h1, h2, -⟩ := h.inRange b.raw (mem_map_of_mem hb)
    exact ⟨h0, h1, h2⟩
  · have htotal := h.total
    rw [map_map] at htotal
    exact htotal

/-- What reading the bytes of a bin gives. -/
def Bin64.read (b : Bin64) : ReadBin :=
  ⟨b.index, (b.count % 2 ^ 64).toNat, b.min, ((b.max - b.min) % 2 ^ 64).toNat⟩

theorem readBins_encode : ∀ {l : List Bin64} {fuel : ℕ} {last : ℤ}, l.length ≤ fuel →
    l.Pairwise (fun a b => a.index < b.index) → (∀ b ∈ l, last < b.index) →
    (∀ b ∈ l, 0 ≤ b.index ∧ b.index < bins ∧ 0 < b.count ∧ b.count < 2 ^ 63 ∧
      -2 ^ 63 ≤ b.min ∧ b.min < 2 ^ 63) →
    readBins fuel last (l.flatMap Bin64.encode) = some (l.map Bin64.read) := by
  intro l
  induction l with
  | nil =>
    intro fuel last _ _ _ _
    cases fuel <;> rfl
  | cons b l ih =>
    intro fuel last hlen hasc hlast hrange
    obtain ⟨fuel, rfl⟩ : ∃ m, fuel = m + 1 := ⟨fuel - 1, by rw [length_cons] at hlen; omega⟩
    obtain ⟨hhead, htail⟩ := pairwise_cons.mp hasc
    obtain ⟨⟨h0, h1, hpos, hcount, hmin, hmax⟩, hrange⟩ := forall_mem_cons.mp hrange
    have hbyte : ((UInt8.ofNat b.index.toNat).toNat : ℤ) = b.index := by
      unfold bins at h1
      rw [toNat_ofNat (by omega)]
      omega
    have hrest := ih (Nat.le_of_succ_le_succ hlen) htail hhead hrange
    have hread : readUvarint64 (uvarint (b.count % 2 ^ 64).toNat ++ (varint b.min ++
        (uvarint ((b.max - b.min) % 2 ^ 64).toNat ++ l.flatMap Bin64.encode))) = _ :=
      readUvarint64_uvarint (by omega) _
    have hwidth :
        readUvarint64 (uvarint ((b.max - b.min) % 2 ^ 64).toNat ++ l.flatMap Bin64.encode) = _ :=
      readUvarint64_uvarint (by omega) _
    have hnonzero : (b.count % 2 ^ 64).toNat ≠ 0 := by omega
    have hidx : ¬(bins ≤ b.index ∨ b.index ≤ last) :=
      not_or.mpr ⟨not_le.mpr h1, not_le.mpr (hlast b mem_cons_self)⟩
    rw [flatMap_cons, Bin64.encode, cons_append, readBins, append_assoc,
      append_assoc]
    simp only [hbyte, if_neg hidx, hread, readVarint64_varint hmin hmax, hwidth, Option.bind_eq_bind,
      Option.bind_some, if_neg hnonzero, hrest]
    rfl

/-- The width comes back, also where it takes all 64 bits. -/
theorem bin_read {b : Bin64} (hpos : 0 < b.count) (hcount : b.count < 2 ^ 63) (hmin : -2 ^ 63 ≤ b.min)
    (hle : b.min ≤ b.max) (hmax : b.max < 2 ^ 63) : b.read.bin = b := by
  have hc : wrap64 ((b.count % 2 ^ 64).toNat : ℤ) = b.count := by
    have hread : ((b.count % 2 ^ 64).toNat : ℤ) = b.count := by omega
    rw [hread]
    exact wrap64_eq (by omega) hcount
  have hw : wrap64 (b.min + wrap64 (((b.max - b.min) % 2 ^ 64).toNat : ℤ)) = b.max := by
    have hread : (((b.max - b.min) % 2 ^ 64).toNat : ℤ) = b.max - b.min := by omega
    rw [hread]
    simp only [wrap64, Int.bmod_def]
    split
    · split
      · omega
      · omega
    · split
      · omega
      · omega
  rw [ReadBin.bin]
  exact congrArg₂ (fun count max => Bin64.mk b.index count b.min max) hc hw

theorem total_histOf : ∀ {l : List ReadBin} {t : ℤ}, 0 ≤ t →
    t + (l.map fun r => (r.count : ℤ)).sum < 2 ^ 63 →
    l.foldl (fun total r => wrap64 (total + wrap64 r.count)) t =
      t + (l.map fun r => (r.count : ℤ)).sum := by
  intro l
  induction l with
  | nil =>
    intro t _ _
    exact (add_zero t).symm
  | cons r l ih =>
    intro t ht hfits
    have hrest : 0 ≤ (l.map fun r => (r.count : ℤ)).sum := sum_nonneg fun c hc => by
      obtain ⟨x, -, rfl⟩ := mem_map.mp hc
      exact Int.natCast_nonneg _
    rw [map_cons, sum_cons] at hfits
    have hcount : wrap64 (r.count : ℤ) = r.count := wrap64_eq (by omega) (by omega)
    have hsum : wrap64 (t + r.count) = t + r.count := wrap64_eq (by omega) (by omega)
    rw [foldl_cons, hcount, hsum, ih (by omega) (by omega), map_cons, sum_cons]
    omega

theorem length_encode64 (l : List Bin64) : l.length ≤ (l.flatMap Bin64.encode).length := by
  induction l with
  | nil => exact Nat.le_refl _
  | cons b l ih =>
    simp only [flatMap_cons, length_append, length_cons, Bin64.encode]
    omega

/-- Decoding an encoded histogram gives it back. -/
theorem decode64_encode {h : Hist64} (hwf : h.WellFormed) (hfits : h.Fits) :
    decode64 h.encode = some h := by
  obtain ⟨u, rfl⟩ := hwf.exists_raw
  have hcount : ∀ b ∈ u.raw.bins, 0 < b.count ∧ b.count < 2 ^ 63 := by
    intro b hb
    obtain ⟨a, ha, rfl⟩ := mem_map.mp hb
    exact ⟨(u.inRange a ha).2.2, (u.count_le_total ha).trans_lt hfits.2⟩
  have hread : readHist u.raw.encode = some (u.raw.bins.map Bin64.read) := by
    rw [Hist64.encode, readHist, if_pos rfl]
    refine readBins_encode (length_encode64 _) hwf.ascending (fun b hb => ?_) fun b hb => ?_
    · have := (hwf.inRange b hb).1
      omega
    · obtain ⟨h0, h1, h2, hle⟩ := hwf.inRange b hb
      obtain ⟨hmin, hmax⟩ := hfits.1 b hb
      exact ⟨h0, h1, h2, (hcount b hb).2, hmin, hle.trans_lt hmax⟩
  have hbins : (u.raw.bins.map Bin64.read).map ReadBin.bin = u.raw.bins := by
    rw [map_map]
    refine (map_congr_left fun b hb => ?_).trans (map_id _)
    obtain ⟨-, -, -, hle⟩ := hwf.inRange b hb
    obtain ⟨hmin, hmax⟩ := hfits.1 b hb
    exact bin_read (hcount b hb).1 (hcount b hb).2 hmin hle hmax
  have htotal : (u.raw.bins.map Bin64.read).foldl (fun total r => wrap64 (total + wrap64 r.count)) 0 =
      u.raw.total := by
    have hcounts : ((u.raw.bins.map Bin64.read).map fun r => (r.count : ℤ)).sum = u.raw.total := by
      rw [hwf.total, map_map]
      refine congrArg List.sum (map_congr_left fun b hb => ?_)
      obtain ⟨h0, h1⟩ := hcount b hb
      simp only [Function.comp_apply, Bin64.read]
      omega
    rw [total_histOf le_rfl, zero_add, hcounts]
    rw [zero_add, hcounts]
    exact hfits.2
  rw [decode64, hread, Option.map_some, histOf, hbins, htotal]

/-! ### What is accepted -/

/-- Counts and widths that are 64-bit integers, and no sum that is not. -/
def NoOverflow (l : List ReadBin) : Prop :=
  (∀ r ∈ l, (r.count : ℤ) < 2 ^ 63 ∧ (r.width : ℤ) < 2 ^ 63 ∧ r.lo + r.width < 2 ^ 63) ∧
    (l.map fun r => (r.count : ℤ)).sum < 2 ^ 63

instance (l : List ReadBin) : Decidable (NoOverflow l) := by unfold NoOverflow; infer_instance

theorem bin_of_fits {r : ReadBin} (hlo : -2 ^ 63 ≤ r.lo) (hcount : (r.count : ℤ) < 2 ^ 63)
    (hwidth : (r.width : ℤ) < 2 ^ 63) (hmax : r.lo + r.width < 2 ^ 63) :
    r.bin = ⟨r.index, r.count, r.lo, r.lo + r.width⟩ := by
  have hw : wrap64 (r.lo + wrap64 r.width) = r.lo + r.width := by
    rw [wrap64_eq (by omega) hwidth]
    exact wrap64_eq (by omega) hmax
  rw [ReadBin.bin, wrap64_eq (by omega) hcount, hw]

/-- What is read in 64 bits is what the unbounded loop reads. -/
theorem readBins_decode : ∀ {fuel : ℕ} {last : ℤ} {buf : List UInt8} {l : List ReadBin},
    readBins fuel last buf = some l →
    (∀ r ∈ l, (r.count : ℤ) < 2 ^ 63 ∧ (r.width : ℤ) < 2 ^ 63 ∧ r.lo + r.width < 2 ^ 63) →
    ∃ bs, decodeBins fuel last buf = some bs ∧ bs.map Bin.raw = l.map ReadBin.bin := by
  intro fuel
  induction fuel with
  | zero =>
    intro last buf l h _
    cases buf with
    | nil =>
      cases h
      exact ⟨[], rfl, rfl⟩
    | cons b buf => cases h
  | succ fuel ih =>
    intro last buf l h hfits
    cases buf with
    | nil =>
      cases h
      exact ⟨[], rfl, rfl⟩
    | cons b buf =>
      rw [readBins] at h
      simp only at h
      split at h
      · cases h
      · rename_i hidx
        obtain ⟨⟨count, buf₁⟩, hcount, h⟩ := Option.bind_eq_some_iff.mp h
        simp only at h
        split at h
        · cases h
        · rename_i hzero
          obtain ⟨⟨lo, buf₂⟩, hlo, h⟩ := Option.bind_eq_some_iff.mp h
          obtain ⟨⟨width, buf₃⟩, hwidth, h⟩ := Option.bind_eq_some_iff.mp h
          obtain ⟨rest, hrest, h⟩ := Option.bind_eq_some_iff.mp h
          obtain rfl := Option.some.inj h
          obtain ⟨⟨hc, hw, hm⟩, hfits⟩ := forall_mem_cons.mp hfits
          obtain ⟨bs, hbs, hraw⟩ := ih hrest hfits
          rw [decodeBins]
          simp only [if_neg hidx, readUvarint64From_eq hcount, readVarint64_eq hlo,
            readUvarint64From_eq hwidth, Option.bind_eq_bind, Option.bind_some, if_neg hzero, hbs]
          refine ⟨_, rfl, ?_⟩
          rw [map_cons, map_cons, hraw, bin_of_fits (readVarint64_min hlo) hc hw hm]
          rfl

/-- A buffer that is accepted, and that overflows nowhere, holds the histogram it decodes to. -/
theorem decode64_raw {buf : List UInt8} {l : List ReadBin} (hread : readHist buf = some l)
    (hfits : NoOverflow l) : ∃ h : Hist, decode buf = some h ∧ h.raw = histOf l := by
  cases buf with
  | nil => cases hread
  | cons v buf =>
    rw [readHist] at hread
    split at hread
    · rename_i hv
      obtain ⟨bs, hbs, hraw⟩ := readBins_decode hread hfits.1
      have htotal : (bs.map Bin.count).sum = (histOf l).total := by
        have hcounts : bs.map Bin.count = l.map fun r => (r.count : ℤ) := by
          have hmap := congrArg (List.map Bin64.count) hraw
          rw [map_map, map_map] at hmap
          refine hmap.trans (map_congr_left fun r hr => ?_)
          rw [Function.comp_apply, bin_count]
          exact wrap64_eq (by omega) (hfits.1 r hr).1
        rw [histOf, total_histOf le_rfl (by rw [zero_add]; exact hfits.2), zero_add, hcounts]
      rw [decode, if_pos hv]
      split
      · rename_i hnone
        rw [hbs] at hnone
        cases hnone
      · rename_i bs' hsome
        obtain rfl := Option.some.inj (hbs.symm.trans hsome)
        exact ⟨_, rfl, congrArg₂ Hist64.mk hraw htotal⟩
    · cases hread

/-! ### Every way to fold durations -/

/-- A way to fold durations: one by one, and histograms into each other. -/
inductive Folding where
  | empty
  | observe (f : Folding) (us : ℤ)
  | merge (f g : Folding)
  deriving Repr

/-- The histogram a folding makes. -/
def Folding.hist (log4 : ℤ → ℤ) : Folding → Hist64
  | .empty => {}
  | .observe f us => (f.hist log4).observe log4 us
  | .merge f g => (f.hist log4).merge (g.hist log4)

/-- The durations that are folded. -/
def Folding.durations : Folding → List ℤ
  | .empty => []
  | .observe f us => f.durations ++ [us]
  | .merge f g => f.durations ++ g.durations

/-- RUN: the result is the histogram of the durations. -/
theorem hist_eq (log4 : ℤ → ℤ) : ∀ f : Folding, (f.durations.length : ℤ) < 2 ^ 63 →
    f.hist log4 = (Hist.of log4 f.durations).raw := by
  intro f
  induction f with
  | empty =>
    intro _
    rfl
  | observe f us ih =>
    intro hlen
    rw [Folding.durations, length_append, length_singleton] at hlen
    rw [Folding.hist, ih (by omega), Folding.durations, Hist.of_snoc]
    refine observe_raw us ?_
    rw [Hist.total_of]
    omega
  | merge f g ihf ihg =>
    intro hlen
    rw [Folding.durations, length_append] at hlen
    rw [Folding.hist, ihf (by omega), ihg (by omega), Folding.durations, Hist.of_append]
    refine merge_raw ?_
    rw [Hist.total_of, Hist.total_of]
    omega

/-- Durations in 64 bits give a histogram in 64 bits. -/
theorem raw_fits {log4 : ℤ → ℤ} {durations : List ℤ} (hlen : (durations.length : ℤ) < 2 ^ 63)
    (hint : ∀ d ∈ durations, -2 ^ 63 ≤ d ∧ d < 2 ^ 63) : (Hist.of log4 durations).raw.Fits := by
  refine ⟨fun b hb => ?_, ?_⟩
  · obtain ⟨a, ha, rfl⟩ := mem_map.mp hb
    obtain ⟨-, -, hmin, hmax, -⟩ := sums_mem ha
    exact ⟨(hint _ (mem_of_mem_filter hmin)).1, (hint _ (mem_of_mem_filter hmax)).2⟩
  · change (Hist.of log4 durations).total < 2 ^ 63
    rwa [Hist.total_of]

/-- CORRECT: the same durations, in any order, observed and merged in any way, give one histogram. It is
    well-formed, counts the durations, and comes back from its bytes; so does every histogram in 64 bits.
    A buffer that is accepted holds one unless a sum overflows, and merging bytes merges histograms. -/
theorem hist_monoid (log4 : ℤ → ℤ) :
    (∀ f g : Folding, f.durations.Perm g.durations → (f.durations.length : ℤ) < 2 ^ 63 →
      f.hist log4 = g.hist log4) ∧
    (∀ f : Folding, (f.durations.length : ℤ) < 2 ^ 63 →
      (f.hist log4).WellFormed ∧ (f.hist log4).total = f.durations.length ∧
      ((∀ d ∈ f.durations, -2 ^ 63 ≤ d ∧ d < 2 ^ 63) → (f.hist log4).Fits)) ∧
    (∀ h : Hist64, h.WellFormed → h.Fits → decode64 h.encode = some h) ∧
    (∀ buf l, readHist buf = some l → NoOverflow l →
      decode64 buf = some (histOf l) ∧ (histOf l).WellFormed) ∧
    ∀ a b : Hist64, a.WellFormed → a.Fits → b.WellFormed → b.Fits →
      mergeEncoded64 a.encode b.encode = some (a.merge b).encode := by
  refine ⟨?_, ?_, fun h => decode64_encode, ?_, ?_⟩
  · intro f g hperm hlen
    rw [hist_eq log4 f hlen, hist_eq log4 g (hperm.length_eq ▸ hlen), Hist.of_perm hperm]
  · intro f hlen
    rw [hist_eq log4 f hlen]
    exact ⟨Hist.raw_wellFormed _, Hist.total_of _, raw_fits hlen⟩
  · intro buf l hread hfits
    obtain ⟨h, -, hraw⟩ := decode64_raw hread hfits
    rw [decode64, hread]
    exact ⟨rfl, hraw ▸ h.raw_wellFormed⟩
  · intro a b ha hafits hb hbfits
    rw [mergeEncoded64, decode64_encode ha hafits, decode64_encode hb hbfits]
    rfl

end Spanbarn.SpanHist
