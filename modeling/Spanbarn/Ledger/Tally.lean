import Mathlib.Algebra.BigOperators.Group.List.Basic
import Mathlib.Tactic.Ring
import Spanbarn.Model.SpanRecord
import Spanbarn.Schemes.Dict

/-! The span ledger: spans counted per project and five-minute bucket at each stage.

    What the trace buffer takes in is counted as accepted, and it leaves through one of four exits:

        accepted ──▶ buffer ──▶ sampledOut │ shedUnsampled │ lostInBuffer │ forwarded

    `balance` is what was accepted and has not left, summed over all rows. -/

namespace Spanbarn.Ledger
open Spanbarn.Model Spanbarn.Schemes

/-- The columns of a ledger row. -/
inductive Column where
  | accepted | sampledOut | shedUnsampled | lostInBuffer | forwarded | processed | failed
  deriving DecidableEq, Repr

/-- Seconds of a ledger bucket. -/
def spanLedgerBucketSeconds : ℤ := 300

/-- The bucket of a span that started at `startUs`. -/
def spanLedgerBucket (startUs : ℤ) : ℤ :=
  let sec := startUs.tdiv 1000000
  sec - sec.tmod spanLedgerBucketSeconds

/-- Bucket and project of a row. -/
abbrev RowKey := ℤ × ℤ

/-- The counts of one row. -/
abbrev Row := Column → ℤ

/-- The counts since the process started. -/
abbrev Tally := Dict RowKey Row

/-- The row of a key; a new row counts nothing. -/
def row (t : Tally) (k : RowKey) : Row := (t.lookup k).getD fun _ => 0

/-- Count `n` spans of a project that started at `startUs`. -/
def add (t : Tally) (col : Column) (projectID startUs n : ℤ) : Tally :=
  let k := (spanLedgerBucket startUs, projectID)
  t.insert k (Function.update (row t k) col (row t k col + n))

/-- Count `sign` once for every span. -/
def addSpans (t : Tally) (col : Column) : List SpanRecord → ℤ → Tally
  | [], _ => t
  | s :: spans, sign => addSpans (add t col s.projectID s.startTimeUs sign) col spans sign

/-- One column over all rows. -/
def columnTotal (t : Tally) (col : Column) : ℤ := total (fun r : Row => r col) t

/-- What left through the four exits of the trace buffer. -/
def exits (t : Tally) : ℤ :=
  columnTotal t .sampledOut + columnTotal t .shedUnsampled + columnTotal t .lostInBuffer +
    columnTotal t .forwarded

/-- Accepted and not left. -/
def balance (t : Tally) : ℤ := columnTotal t .accepted - exits t

/-- What one count does to the balance. -/
def Column.sign : Column → ℤ
  | .accepted => 1
  | .sampledOut | .shedUnsampled | .lostInBuffer | .forwarded => -1
  | .processed | .failed => 0

theorem columnTotal_add (t : Tally) (c col : Column) (projectID startUs n : ℤ) :
    columnTotal (add t c projectID startUs n) col = columnTotal t col + if c = col then n else 0 := by
  have hrow : ∀ k, Function.update (row t k) c (row t k c + n) col =
      row t k col + if c = col then n else 0 := by
    intro k
    by_cases h : c = col
    · subst h; simp
    · rw [Function.update_of_ne (Ne.symm h), if_neg h, add_zero]
  simp only [columnTotal, add]
  generalize hk : ((spanLedgerBucket startUs, projectID) : RowKey) = k
  cases h : t.lookup k with
  | none =>
    rw [total_insert_of_none h, hrow, row, h]
    simp [add_comm]
  | some r =>
    have hr : row t k = r := by rw [row, h]; rfl
    have hins := total_insert (f := fun r : Row => r col)
      (v := Function.update (row t k) c (row t k c + n)) h
    rw [hrow, hr] at hins
    rw [hr]
    omega

@[simp] theorem balance_add (t : Tally) (c : Column) (projectID startUs n : ℤ) :
    balance (add t c projectID startUs n) = balance t + c.sign * n := by
  simp only [balance, exits, columnTotal_add]
  cases c <;> simp [Column.sign] <;> ring

@[simp] theorem balance_addSpans : ∀ (spans : List SpanRecord) (t : Tally) (c : Column) (n : ℤ),
    balance (addSpans t c spans n) = balance t + c.sign * n * spans.length
  | [], t, c, n => by simp [addSpans]
  | s :: spans, t, c, n => by
    rw [addSpans, balance_addSpans spans, balance_add, List.length_cons]
    push_cast
    ring

end Spanbarn.Ledger
