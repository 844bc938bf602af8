import Mathlib.Data.List.Basic
import Mathlib.Data.List.Flatten
import Mathlib.Algebra.BigOperators.Group.List.Basic

/-! Files of lines, read record by record from a byte offset.

    A line ends with its terminator; bytes after the last terminator are a write still in flight and
    are never read. A reader takes records until it has `limit` of them or runs out of whole lines,
    skips lines that do not decode, and reports how many bytes it has consumed. -/

namespace Spanbarn.Schemes
open List

variable {β ρ σ : Type*} [DecidableEq β]

/-! ### One line -/

/-- The first line with its terminator and what follows it; `none` without a terminator. -/
def readLine (nl : β) : List β → Option (List β × List β)
  | [] => none
  | b :: bs => if b = nl then some ([b], bs) else (readLine nl bs).map fun p => (b :: p.1, p.2)

theorem readLine_append {nl : β} : ∀ {w : List β} (rest : List β), nl ∉ w →
    readLine nl (w ++ nl :: rest) = some (w ++ [nl], rest)
  | [], rest, _ => by simp [readLine]
  | b :: w, rest, h => by
    obtain ⟨hb, hw⟩ := ne_and_not_mem_of_not_mem_cons h
    rw [cons_append, readLine, if_neg (Ne.symm hb), readLine_append rest hw]
    rfl

theorem readLine_eq_none {nl : β} : ∀ {w : List β}, nl ∉ w → readLine nl w = none
  | [], _ => rfl
  | b :: w, h => by
    obtain ⟨hb, hw⟩ := ne_and_not_mem_of_not_mem_cons h
    rw [readLine, if_neg (Ne.symm hb), readLine_eq_none hw]
    rfl

/-! ### Many lines -/

/-- The records read, the bytes consumed and the lines skipped. -/
structure Scan (ρ : Type*) where
  records : List ρ
  consumed : ℕ
  skipped : ℕ
  deriving DecidableEq, Repr

/-- Read up to `limit` records. Every round consumes a line, so `fuel` rounds are enough for a file
    of fewer than `fuel` bytes. -/
def scanLines (nl : β) (decode : List β → Option ρ) : ℕ → ℕ → List β → Scan ρ
  | 0, _, _ => ⟨[], 0, 0⟩
  | _, 0, _ => ⟨[], 0, 0⟩
  | fuel + 1, limit + 1, bytes =>
    match readLine nl bytes with
    | none => ⟨[], 0, 0⟩
    | some (line, rest) =>
      match decode line with
      | none =>
        let r := scanLines nl decode fuel (limit + 1) rest
        ⟨r.records, line.length + r.consumed, r.skipped + 1⟩
      | some record =>
        let r := scanLines nl decode fuel limit rest
        ⟨record :: r.records, line.length + r.consumed, r.skipped⟩

/-- A file of records, one line each. -/
def joinLines (nl : β) (encode : σ → List β) (items : List σ) : List β :=
  items.flatMap fun x => encode x ++ [nl]

section Join
variable {nl : β} {encode : σ → List β} {decode : List β → Option ρ} {value : σ → ρ}

omit [DecidableEq β] in
@[simp] theorem joinLines_nil : joinLines nl encode [] = [] := rfl

omit [DecidableEq β] in
@[simp] theorem joinLines_cons (x : σ) (xs : List σ) :
    joinLines nl encode (x :: xs) = encode x ++ nl :: joinLines nl encode xs := by
  simp [joinLines]

omit [DecidableEq β] in
@[simp] theorem joinLines_append (xs ys : List σ) :
    joinLines nl encode (xs ++ ys) = joinLines nl encode xs ++ joinLines nl encode ys := by
  simp [joinLines]

omit [DecidableEq β] in
theorem joinLines_map (xs : List σ) : joinLines nl id (xs.map encode) = joinLines nl encode xs := by
  simp [joinLines, flatMap_map]

omit [DecidableEq β] in
theorem length_le_joinLines : ∀ xs : List σ, xs.length ≤ (joinLines nl encode xs).length
  | [] => Nat.le_refl _
  | x :: xs => by
    have := length_le_joinLines xs
    simp only [joinLines_cons, length_append, length_cons]
    omega

/-- Reading a file of decodable records, with an unfinished line at its end, gives the first `limit`
    of them and ends right after their lines. -/
theorem scanLines_joinLines (hnl : ∀ x, nl ∉ encode x) {tail : List β} (htail : nl ∉ tail) :
    ∀ (xs : List σ) (fuel limit : ℕ), xs.length ≤ fuel →
      (∀ x ∈ xs, decode (encode x ++ [nl]) = some (value x)) →
      scanLines nl decode fuel limit (joinLines nl encode xs ++ tail) =
        ⟨(xs.take limit).map value, (joinLines nl encode (xs.take limit)).length, 0⟩
  | [], 0, limit, _, _ => by simp [scanLines]
  | [], fuel + 1, 0, _, _ => by simp [scanLines]
  | [], fuel + 1, limit + 1, _, _ => by simp [scanLines, readLine_eq_none htail]
  | x :: xs, 0, _, h, _ => by simp at h
  | x :: xs, fuel + 1, 0, _, _ => by simp [scanLines]
  | x :: xs, fuel + 1, limit + 1, h, hdec => by
    have hrest := scanLines_joinLines hnl htail xs fuel limit
      (Nat.le_of_succ_le_succ h) fun y hy => hdec y (mem_cons_of_mem _ hy)
    have hline : readLine nl (joinLines nl encode (x :: xs) ++ tail) =
        some (encode x ++ [nl], joinLines nl encode xs ++ tail) := by
      rw [joinLines_cons, append_assoc, cons_append]
      exact readLine_append _ (hnl x)
    simp only [scanLines, hline, hdec x mem_cons_self, hrest]
    simp only [take_succ_cons, map_cons, joinLines_cons, length_append,
      length_cons, length_nil, Scan.mk.injEq, true_and, and_true]
    omega

end Join

/-! ### Files with an unfinished end -/

/-- Whole lines, then bytes of a line that was never ended. -/
structure Lined (nl : β) (file : List β) (lines : List (List β)) (tail : List β) : Prop where
  bytes : file = joinLines nl id lines ++ tail
  whole : ∀ l ∈ lines, nl ∉ l
  torn : nl ∉ tail

/-- What the lines decode to. -/
def decodeLines (nl : β) (decode : List β → Option ρ) (lines : List (List β)) : List ρ :=
  lines.filterMap fun l => decode (l ++ [nl])

section Lined
variable {nl : β} {decode : List β → Option ρ} {file tail : List β} {lines : List (List β)}

omit [DecidableEq β] in
@[simp] theorem decodeLines_nil : decodeLines nl decode [] = [] := rfl

omit [DecidableEq β] in
@[simp] theorem decodeLines_append (a b : List (List β)) :
    decodeLines nl decode (a ++ b) = decodeLines nl decode a ++ decodeLines nl decode b :=
  filterMap_append

omit [DecidableEq β] in
theorem lined_nil : Lined nl [] [] [] := ⟨rfl, forall_mem_nil _, not_mem_nil⟩

omit [DecidableEq β] in
/-- A line that is added ends the unfinished one. -/
theorem Lined.addLine (h : Lined nl file lines tail) {d : List β} (hd : nl ∉ d) :
    Lined nl (file ++ (d ++ [nl])) (lines ++ [tail ++ d]) [] where
  bytes := by simp [h.bytes]
  whole := by
    intro l hl
    rcases mem_append.mp hl with hl | hl
    · exact h.whole l hl
    · rw [mem_singleton.mp hl, mem_append]
      exact not_or.mpr ⟨h.torn, hd⟩
  torn := not_mem_nil

omit [DecidableEq β] in
theorem Lined.addLines {ds : List (List β)} (h : Lined nl file lines []) (hd : ∀ d ∈ ds, nl ∉ d) :
    Lined nl (file ++ joinLines nl id ds) (lines ++ ds) [] where
  bytes := by simp [h.bytes]
  whole := by
    intro l hl
    exact (mem_append.mp hl).elim (h.whole l) (hd l)
  torn := not_mem_nil

omit [DecidableEq β] in
theorem Lined.addTail (h : Lined nl file lines tail) {d : List β} (hd : nl ∉ d) :
    Lined nl (file ++ d) lines (tail ++ d) where
  bytes := by rw [h.bytes, append_assoc]
  whole := h.whole
  torn := by
    rw [mem_append]
    exact not_or.mpr ⟨h.torn, hd⟩

omit [DecidableEq β] in
/-- A file that is empty or ends with its terminator has no unfinished line. -/
theorem Lined.tail_eq_nil (h : Lined nl file lines tail) (hend : ∀ b, file.getLast? = some b → b = nl) :
    tail = [] := by
  rcases eq_nil_or_concat tail with ht | ⟨t, b, ht⟩
  · exact ht
  · have hlast : file.getLast? = some b := by
      rw [h.bytes, ht, concat_eq_append, ← append_assoc, List.getLast?_concat]
    refine absurd ?_ h.torn
    rw [ht, ← hend b hlast]
    simp

/-- A scan passes some of the lines and returns what they decode to; one that returns fewer than
    `limit` has passed them all. -/
theorem scanLines_lines (decode : List β → Option ρ) (htail : nl ∉ tail) :
    ∀ (lines : List (List β)) (fuel limit : ℕ), lines.length ≤ fuel → (∀ l ∈ lines, nl ∉ l) →
      ∃ passed rest skipped, lines = passed ++ rest ∧
        scanLines nl decode fuel limit (joinLines nl id lines ++ tail) =
          ⟨decodeLines nl decode passed, (joinLines nl id passed).length, skipped⟩ ∧
        ((decodeLines nl decode passed).length < limit → rest = [])
  | [], 0, limit, _, _ => ⟨[], [], 0, rfl, by simp [scanLines], fun _ => rfl⟩
  | [], fuel + 1, 0, _, _ => ⟨[], [], 0, rfl, by simp [scanLines], fun _ => rfl⟩
  | [], fuel + 1, limit + 1, _, _ =>
    ⟨[], [], 0, rfl, by simp [scanLines, readLine_eq_none htail], fun _ => rfl⟩
  | l :: lines, 0, _, h, _ => by simp at h
  | l :: lines, fuel + 1, 0, _, _ =>
    ⟨[], l :: lines, 0, rfl, by simp [scanLines], fun h => absurd h (Nat.not_lt_zero _)⟩
  | l :: lines, fuel + 1, limit + 1, h, hwhole => by
    have hline : readLine nl (joinLines nl id (l :: lines) ++ tail) =
        some (l ++ [nl], joinLines nl id lines ++ tail) := by
      rw [joinLines_cons, append_assoc, cons_append]
      exact readLine_append _ (hwhole l mem_cons_self)
    have hrest := fun limit => scanLines_lines decode htail lines fuel limit (Nat.le_of_succ_le_succ h)
      fun x hx => hwhole x (mem_cons_of_mem _ hx)
    cases hd : decode (l ++ [nl]) with
    | none =>
      obtain ⟨passed, rest, skipped, rfl, hscan, hall⟩ := hrest (limit + 1)
      have hpassed : decodeLines nl decode (l :: passed) = decodeLines nl decode passed := by
        simp [decodeLines, hd]
      refine ⟨l :: passed, rest, skipped + 1, rfl, ?_, by rwa [hpassed]⟩
      simp only [scanLines, hline, hd, hscan, hpassed]
      simp only [joinLines_cons, id, length_append, length_cons, length_nil,
        Scan.mk.injEq, true_and, and_true]
      omega
    | some record =>
      obtain ⟨passed, rest, skipped, rfl, hscan, hall⟩ := hrest limit
      have hpassed : decodeLines nl decode (l :: passed) = record :: decodeLines nl decode passed := by
        simp [decodeLines, hd]
      refine ⟨l :: passed, rest, skipped, rfl, ?_, fun hlt => hall ?_⟩
      · simp only [scanLines, hline, hd, hscan, hpassed]
        simp only [joinLines_cons, id, length_append, length_cons, length_nil,
          Scan.mk.injEq, true_and, and_true]
        omega
      · rw [hpassed, length_cons] at hlt
        omega

end Lined

end Spanbarn.Schemes
