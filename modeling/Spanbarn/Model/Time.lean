import Spanbarn.Schemes.Numbers

/-! Instants and durations in nanoseconds, and the texts a time column holds.

    SQLite compares times as texts. A row inserted without a time has the database's own, of whole
    seconds and without a zone; a time the program binds is printed with its zone, and with a fraction
    if it has one. All are UTC:

        inline   2026-10-01 14:42:41
        bound    2026-10-01 14:42:41 +0000 UTC
        bound    2026-10-01 14:42:41.5 +0000 UTC

    A blank sorts before a dot and a text after its beginnings, so bound times compare as instants do,
    and an inline time sorts just before the bound time of the same instant. -/

namespace Spanbarn.Model
open Spanbarn.Schemes

def secondNanos : ℤ := 10 ^ 9

def minuteNanos : ℤ := 60 * 10 ^ 9

def hourNanos : ℤ := 3600 * 10 ^ 9

def dayNanos : ℤ := 86400 * 10 ^ 9

/-- `now.Add(-time.Duration(n) * unit)`: the product is one of 64 bits. -/
def ago (now n unit : ℤ) : ℤ := now + wrap64 (-n * unit)

theorem ago_eq {n unit : ℤ} (now : ℤ) (h : Fits64 (-n * unit)) : ago now n unit = now - n * unit := by
  rw [ago, h.wrap64, neg_mul, sub_eq_add_neg]

/-- `column < ?`: the stored text sorts before that of the bound time. -/
def textBefore (inline : Bool) (stored bound : ℤ) : Bool :=
  decide (stored < bound) || (inline && decide (stored = bound))

end Spanbarn.Model
