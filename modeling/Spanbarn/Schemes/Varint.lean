import Mathlib.Data.List.Basic
import Mathlib.Data.Nat.Notation
import Mathlib.Data.Int.Notation
import Mathlib.Tactic.NormNum.Basic

/-! Variable-length integers.

    A natural number is written seven bits a byte, lowest first, and every byte but the last has its
    high bit set. A signed one is folded onto the naturals first, so that small magnitudes stay short:

        0, -1, 1, -2, 2, …  ──zigzag──▶  0, 1, 2, 3, 4, …

    Numbers are unbounded, so a number may take any number of bytes; the readers of 64-bit numbers stop
    at the tenth, which holds a single bit. -/

namespace Spanbarn.Schemes

/-! ### Unsigned -/

/-- The loop of `uvarint`; `n` rounds are enough for a number below `n`. -/
def uvarintFrom : ℕ → ℕ → List UInt8
  | 0, _ => []
  | fuel + 1, n =>
    if n < 128 then [UInt8.ofNat n]
    else UInt8.ofNat (n % 128 + 128) :: uvarintFrom fuel (n / 128)

def uvarint (n : ℕ) : List UInt8 := uvarintFrom (n + 1) n

/-- The number the bytes start with and what follows it; `none` when they end inside it. -/
def readUvarint : List UInt8 → Option (ℕ × List UInt8)
  | [] => none
  | b :: bs =>
    if b.toNat < 128 then some (b.toNat, bs)
    else (readUvarint bs).map fun p => (b.toNat - 128 + 128 * p.1, p.2)

theorem toNat_ofNat {n : ℕ} (h : n < 256) : (UInt8.ofNat n).toNat = n := by
  simp [Nat.mod_eq_of_lt h]

theorem readUvarint_uvarintFrom (rest : List UInt8) : ∀ {fuel n : ℕ}, n < fuel →
    readUvarint (uvarintFrom fuel n ++ rest) = some (n, rest)
  | 0, n, h => absurd h (Nat.not_lt_zero n)
  | fuel + 1, n, h => by
    by_cases hn : n < 128
    · have hb : (UInt8.ofNat n).toNat = n := toNat_ofNat (by omega)
      rw [uvarintFrom, if_pos hn, List.singleton_append, readUvarint, hb, if_pos hn]
    · have hb : (UInt8.ofNat (n % 128 + 128)).toNat = n % 128 + 128 := toNat_ofNat (by omega)
      have hbig : ¬ n % 128 + 128 < 128 := by omega
      rw [uvarintFrom, if_neg hn, List.cons_append, readUvarint, hb, if_neg hbig,
        readUvarint_uvarintFrom rest (by omega : n / 128 < fuel)]
      simp only [Option.map_some, Option.some.injEq, Prod.mk.injEq, and_true]
      omega

/-- Reading back what was written leaves what follows it. -/
theorem readUvarint_uvarint (n : ℕ) (rest : List UInt8) :
    readUvarint (uvarint n ++ rest) = some (n, rest) :=
  readUvarint_uvarintFrom rest (Nat.lt_succ_self n)

/-- The loop that reads a 64-bit number, from byte `i` on: the tenth byte is the last, and at most 1. -/
def readUvarint64From : ℕ → List UInt8 → Option (ℕ × List UInt8)
  | _, [] => none
  | i, b :: bs =>
    if i = 10 then none
    else if b.toNat < 128 then if i = 9 ∧ 1 < b.toNat then none else some (b.toNat, bs)
    else (readUvarint64From (i + 1) bs).map fun p => (b.toNat - 128 + 128 * p.1, p.2)

def readUvarint64 (bs : List UInt8) : Option (ℕ × List UInt8) := readUvarint64From 0 bs

/-- What is read in 64 bits is what is there. -/
theorem readUvarint64From_eq : ∀ {bs : List UInt8} {i : ℕ} {p : ℕ × List UInt8},
    readUvarint64From i bs = some p → readUvarint bs = some p := by
  intro bs
  induction bs with
  | nil =>
    intro i p h
    cases h
  | cons b bs ih =>
    intro i p h
    rw [readUvarint64From] at h
    rw [readUvarint]
    split at h
    · cases h
    · split at h
      · rename_i hb
        rw [if_pos hb]
        split at h
        · cases h
        · exact h
      · rename_i hb
        rw [if_neg hb]
        obtain ⟨q, hq, hp⟩ := Option.map_eq_some_iff.mp h
        rw [ih hq]
        exact congrArg some hp

theorem pow_shift {i : ℕ} (hi : i < 9) : 2 ^ (64 - 7 * i) = 128 * 2 ^ (64 - 7 * (i + 1)) := by
  rw [show 64 - 7 * i = 7 + (64 - 7 * (i + 1)) by omega, Nat.pow_add]

theorem readUvarint64From_lt : ∀ {bs : List UInt8} {i : ℕ} {p : ℕ × List UInt8}, i ≤ 9 →
    readUvarint64From i bs = some p → p.1 < 2 ^ (64 - 7 * i) := by
  intro bs
  induction bs with
  | nil =>
    intro i p _ h
    cases h
  | cons b bs ih =>
    intro i p hi h
    rw [readUvarint64From, if_neg (by omega)] at h
    split at h
    · rename_i hb
      split at h
      · cases h
      · rename_i hlast
        obtain rfl := Option.some.inj h
        rcases Nat.lt_or_eq_of_le hi with hlt | rfl
        · rw [pow_shift hlt]
          have := Nat.one_le_two_pow (n := 64 - 7 * (i + 1))
          change b.toNat < _
          omega
        · change b.toNat < 2
          omega
    · obtain ⟨q, hq, rfl⟩ := Option.map_eq_some_iff.mp h
      rcases Nat.lt_or_eq_of_le hi with hlt | rfl
      · have hrest : q.1 < 2 ^ (64 - 7 * (i + 1)) := ih hlt hq
        have hb := b.toNat_lt
        rw [pow_shift hlt]
        change b.toNat - 128 + 128 * q.1 < _
        omega
      · cases bs with
        | nil => cases hq
        | cons c bs =>
          rw [readUvarint64From, if_pos rfl] at hq
          cases hq

theorem readUvarint64From_uvarintFrom (rest : List UInt8) : ∀ {fuel n i : ℕ}, n < fuel → i ≤ 9 →
    n < 2 ^ (64 - 7 * i) → readUvarint64From i (uvarintFrom fuel n ++ rest) = some (n, rest) := by
  intro fuel
  induction fuel with
  | zero =>
    intro n i h
    omega
  | succ fuel ih =>
    intro n i h hi hn
    have hi10 : ¬i = 10 := by omega
    by_cases hsmall : n < 128
    · have hb : (UInt8.ofNat n).toNat = n := toNat_ofNat (by omega)
      have hlast : ¬(i = 9 ∧ 1 < n) := by
        rintro ⟨rfl, h1⟩
        norm_num at hn
        omega
      rw [uvarintFrom, if_pos hsmall, List.singleton_append, readUvarint64From, hb, if_neg hi10,
        if_pos hsmall, if_neg hlast]
    · have hb : (UInt8.ofNat (n % 128 + 128)).toNat = n % 128 + 128 := toNat_ofNat (by omega)
      have hbig : ¬ n % 128 + 128 < 128 := by omega
      have hi9 : i ≠ 9 := by
        rintro rfl
        norm_num at hn
        omega
      have hdiv : n / 128 < 2 ^ (64 - 7 * (i + 1)) := by
        rw [pow_shift (by omega)] at hn
        exact Nat.div_lt_of_lt_mul hn
      rw [uvarintFrom, if_neg hsmall, List.cons_append, readUvarint64From, hb, if_neg hi10, if_neg hbig,
        ih (by omega : n / 128 < fuel) (by omega) hdiv]
      simp only [Option.map_some, Option.some.injEq, Prod.mk.injEq, and_true]
      omega

theorem readUvarint64_uvarint {n : ℕ} (h : n < 2 ^ 64) (rest : List UInt8) :
    readUvarint64 (uvarint n ++ rest) = some (n, rest) :=
  readUvarint64From_uvarintFrom rest (Nat.lt_succ_self n) (by omega) h

/-! ### Signed -/

/-- Naturals for the signed numbers, by magnitude. -/
def zigzag (x : ℤ) : ℕ := if 0 ≤ x then 2 * x.toNat else 2 * (-x).toNat - 1

def unzigzag (n : ℕ) : ℤ := if n % 2 = 0 then (n / 2 : ℕ) else -((n / 2 : ℕ) : ℤ) - 1

theorem unzigzag_zigzag (x : ℤ) : unzigzag (zigzag x) = x := by
  unfold unzigzag zigzag
  split <;> split <;> omega

def varint (x : ℤ) : List UInt8 := uvarint (zigzag x)

/-- The signed number the bytes start with and what follows it. -/
def readVarint (bs : List UInt8) : Option (ℤ × List UInt8) :=
  (readUvarint bs).map fun p => (unzigzag p.1, p.2)

theorem readVarint_varint (x : ℤ) (rest : List UInt8) :
    readVarint (varint x ++ rest) = some (x, rest) := by
  rw [readVarint, varint, readUvarint_uvarint, Option.map_some, unzigzag_zigzag]

def readVarint64 (bs : List UInt8) : Option (ℤ × List UInt8) :=
  (readUvarint64 bs).map fun p => (unzigzag p.1, p.2)

theorem readVarint64_eq {bs : List UInt8} {p : ℤ × List UInt8} (h : readVarint64 bs = some p) :
    readVarint bs = some p := by
  obtain ⟨q, hq, hp⟩ := Option.map_eq_some_iff.mp h
  rw [readVarint, readUvarint64From_eq hq]
  exact congrArg some hp

theorem readVarint64_min {bs : List UInt8} {p : ℤ × List UInt8} (h : readVarint64 bs = some p) :
    -2 ^ 63 ≤ p.1 := by
  obtain ⟨q, hq, rfl⟩ := Option.map_eq_some_iff.mp h
  have hlt := readUvarint64From_lt (Nat.zero_le 9) hq
  change -2 ^ 63 ≤ unzigzag q.1
  unfold unzigzag
  split
  · omega
  · omega

theorem readVarint64_varint {x : ℤ} (hmin : -2 ^ 63 ≤ x) (hmax : x < 2 ^ 63) (rest : List UInt8) :
    readVarint64 (varint x ++ rest) = some (x, rest) := by
  have hzigzag : zigzag x < 2 ^ 64 := by
    unfold zigzag
    split
    · omega
    · omega
  rw [readVarint64, varint, readUvarint64_uvarint hzigzag, Option.map_some, unzigzag_zigzag]

end Spanbarn.Schemes
