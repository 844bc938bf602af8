import Mathlib.Data.Rat.Floor

/-! Numbers of a fixed width.

    A program adds in 64-bit words and in binary floats, and a database in integer columns that turn
    into floats when a sum no longer fits:

        wrap64   ℤ ──▶ ℤ      the signed word
        float64  ℚ ──▶ ℚ      53 significant bits, halfway cases to even
        sqlAdd   ℤ, ℤ ──▶ ℤ   the sum while it fits, else the sum of the floats

    The first and the last are exact on what a word can hold. -/

namespace Spanbarn.Schemes

/-! ### Words -/

/-- The signed 64-bit integer of a number. -/
def wrap64 (x : ℤ) : ℤ := Int.bmod x (2 ^ 64)

theorem wrap64_eq {x : ℤ} (hmin : -2 ^ 63 ≤ x) (hmax : x < 2 ^ 63) : wrap64 x = x := by
  rw [wrap64, Int.bmod_def]
  split
  · omega
  · omega

/-- The number is a signed 64-bit integer. -/
def Fits64 (x : ℤ) : Prop := -2 ^ 63 ≤ x ∧ x < 2 ^ 63

instance (x : ℤ) : Decidable (Fits64 x) := inferInstanceAs (Decidable (_ ∧ _))

theorem Fits64.wrap64 {x : ℤ} (h : Fits64 x) : wrap64 x = x := wrap64_eq h.1 h.2

theorem toInt_ofInt (x : ℤ) : (Int64.ofInt x).toInt = wrap64 x := Int64.toInt_ofInt

theorem toInt_add_ofInt (a : Int64) (x : ℤ) : (a + Int64.ofInt x).toInt = wrap64 (a.toInt + x) := by
  rw [Int64.toInt_add, toInt_ofInt]
  exact Int.add_bmod_bmod

theorem fits64_toInt (x : Int64) : Fits64 x.toInt := ⟨Int64.le_toInt x, Int64.toInt_lt x⟩

/-! ### Floats -/

/-- The exponent of the leading bit: `2 ^ e ≤ |x| < 2 ^ (e + 1)`. -/
def binaryExponent (x : ℚ) : ℤ :=
  let e : ℤ := x.num.natAbs.log2 - x.den.log2
  if (2 : ℚ) ^ e ≤ |x| then e else e - 1

/-- The nearest integer, of two the even one. -/
def roundEven (x : ℚ) : ℤ :=
  if x - ⌊x⌋ < 1 / 2 then ⌊x⌋
  else if 1 / 2 < x - ⌊x⌋ then ⌊x⌋ + 1
  else ⌊x⌋ + ⌊x⌋ % 2

/-- The finite `float64` nearest to a number; there are no infinities here. -/
def float64 (x : ℚ) : ℚ :=
  let ulp : ℚ := 2 ^ max (-1074) (binaryExponent x - 52)
  roundEven (x / ulp) * ulp

theorem roundEven_nonneg {x : ℚ} (h : 0 ≤ x) : 0 ≤ roundEven x := by
  have hfloor : 0 ≤ ⌊x⌋ := Int.floor_nonneg.mpr h
  unfold roundEven
  split
  · exact hfloor
  · split
    · omega
    · omega

theorem float64_nonneg {x : ℚ} (h : 0 ≤ x) : 0 ≤ float64 x := by
  have hulp : (0 : ℚ) ≤ 2 ^ max (-1074) (binaryExponent x - 52) := zpow_nonneg zero_le_two _
  exact mul_nonneg (Int.cast_nonneg (roundEven_nonneg (div_nonneg h hulp))) hulp

example : float64 (float64 (1 / 10) + float64 (2 / 10)) ≠ float64 (3 / 10) := by decide +kernel

/-! ### Columns -/

/-- `+` on an integer column: a sum that does not fit is that of the floats. -/
def sqlAdd (a b : ℤ) : ℤ :=
  if Fits64 a ∧ Fits64 b ∧ Fits64 (a + b) then a + b else ⌊float64 (float64 a + float64 b)⌋

theorem sqlAdd_of_fits {a b : ℤ} (ha : Fits64 a) (hb : Fits64 b) (h : Fits64 (a + b)) :
    sqlAdd a b = a + b := if_pos ⟨ha, hb, h⟩

end Spanbarn.Schemes
