import Mathlib.Data.List.Basic
import Mathlib.Data.Int.Notation
import Spanbarn.Model.SpanRecord
import Spanbarn.Schemes.Lines

/-! The spool: an append-only file of JSON lines that rotates into one old file.

        Write ──▶ cur ──rotate──▶ old          one integer cursor addresses both files:
                   ▲               ▲           while old exists it is an offset into old,
                   └──── Read ─────┘           afterwards an offset into cur

    A write that brings the current file to `maxBytes` renames it to the old file. While an old file
    is still there the current file is emptied instead. Read finishes and removes the old file before
    it turns to the current one. Files are byte lists; the operating system's calls succeed, except
    that removing the old file may fail. -/

namespace Spanbarn.Forward
open List Spanbarn.Schemes Spanbarn.Model

/-- The newline byte. -/
def nl : UInt8 := 10

/-- Default spool file size before rotation, 64 MiB. -/
def defaultMaxBytes : ℕ := 67108864

/-- JSON coding of one record. Marshalling fails on invalid raw JSON and may normalise a record
    (`canon`, such as replacing invalid UTF-8); what it writes holds no raw newline and decodes, with
    the newline that ends its line, to the normal form. -/
structure LineCodec where
  marshal : SpanRecord → Option (List UInt8)
  unmarshal : List UInt8 → Option SpanRecord
  canon : SpanRecord → SpanRecord
  no_newline : ∀ {r d}, marshal r = some d → nl ∉ d
  round_trip : ∀ {r d}, marshal r = some d → unmarshal (d ++ [nl]) = some (canon r)

/-- The files and the counters of one spool. -/
structure Spool where
  maxBytes : ℕ
  maxBytes_pos : 0 < maxBytes
  cur : List UInt8 := []
  old : Option (List UInt8) := none
  size : ℕ := 0
  readUndecodable : ℕ := 0
  undecodable : ℕ := 0

/-- `NewSpool` in an empty directory. -/
def newSpool (maxBytes : ℤ) : Spool where
  maxBytes := if maxBytes ≤ 0 then defaultMaxBytes else maxBytes.toNat
  maxBytes_pos := by
    split
    · decide
    · omega

variable {c : LineCodec} {s : Spool} {o : List UInt8} {cursor limit : ℕ}

namespace Spool

/-! ### Write -/

/-- Append the records' lines; a record that does not marshal ends the call with an error. -/
def append (c : LineCodec) (s : Spool) : List SpanRecord → Spool × Bool
  | [] => (s, true)
  | r :: rs =>
    match c.marshal r with
    | none => (s, false)
    | some data =>
      append c { s with cur := s.cur ++ (data ++ [nl]), size := s.size + (data ++ [nl]).length } rs

/-- Rename the current file to the old one and start a fresh one; while an old file is there, empty
    the current one. -/
def rotate (s : Spool) : Spool :=
  match s.old with
  | some _ => { s with cur := [], size := 0 }
  | none => { s with old := some s.cur, cur := [], size := 0 }

/-- `Write`, with whether it succeeded. -/
def write (c : LineCodec) (s : Spool) (records : List SpanRecord) : Spool × Bool :=
  match s.append c records with
  | (s', false) => (s', false)
  | (s', true) => if s'.maxBytes ≤ s'.size then (s'.rotate, true) else (s', true)

/-- The write of these records reaches `maxBytes`. -/
def rotates (c : LineCodec) (s : Spool) (records : List SpanRecord) : Bool :=
  s.maxBytes ≤ (s.append c records).1.size

/-! ### Read -/

/-- `readFile`: up to `limit` records from byte offset `cursor` on. -/
def readFile (c : LineCodec) (file : List UInt8) (cursor limit : ℕ) : Scan SpanRecord :=
  scanLines nl c.unmarshal (file.drop cursor).length limit (file.drop cursor)

/-- Move the last read's skipped lines into the total. -/
def countUndecodable (s : Spool) : Spool :=
  { s with undecodable := s.undecodable + s.readUndecodable, readUndecodable := 0 }

/-- The part of `Read` that turns to the current file. A cursor past its end starts over. -/
def readCurrent (c : LineCodec) (s : Spool) (cursor limit : ℕ) : (List SpanRecord × ℕ) × Spool :=
  let cursor := if 0 < cursor ∧ s.cur.length < cursor then 0 else cursor
  let r := readFile c s.cur cursor limit
  ((r.records, cursor + r.consumed), { s with readUndecodable := s.readUndecodable + r.skipped })

/-- `Read`: the records with the next cursor, or `none` for the error of a failed remove. -/
def read (c : LineCodec) (s : Spool) (cursor limit : ℕ) (removeFails : Bool) :
    Option (List SpanRecord × ℕ) × Spool :=
  match s.old with
  | some o =>
    let r := readFile c o cursor limit
    let s := { s with readUndecodable := r.skipped }
    if r.records ≠ [] then (some (r.records, cursor + r.consumed), s)
    else if removeFails then (none, s)
    else
      let (p, s) := readCurrent c (countUndecodable { s with old := none }) 0 limit
      (some p, s)
  | none =>
    let (p, s) := readCurrent c { s with readUndecodable := 0 } cursor limit
    (some p, s)

theorem read_of_old (ho : s.old = some o) (hr : (readFile c o cursor limit).records ≠ [])
    (removeFails : Bool) :
    s.read c cursor limit removeFails =
      (some ((readFile c o cursor limit).records, cursor + (readFile c o cursor limit).consumed),
        { s with readUndecodable := (readFile c o cursor limit).skipped }) := by
  unfold read
  split
  · rename_i o' ho'
    obtain rfl := Option.some.inj (ho.symm.trans ho')
    exact if_pos hr
  · rename_i ho'
    rw [ho] at ho'
    simp at ho'

/-- Nothing more is found in the old file: it is removed, and the current one is read. -/
theorem read_of_exhausted (ho : s.old = some o) (hr : (readFile c o cursor limit).records = [])
    (removeFails : Bool) :
    s.read c cursor limit removeFails =
      if removeFails then (none, { s with readUndecodable := (readFile c o cursor limit).skipped })
      else ((readCurrent c (countUndecodable
        { s with old := none, readUndecodable := (readFile c o cursor limit).skipped }) 0
        limit).map some id) := by
  unfold read
  split
  · rename_i o' ho'
    obtain rfl := Option.some.inj (ho.symm.trans ho')
    exact if_neg (not_not.mpr hr)
  · rename_i ho'
    rw [ho] at ho'
    simp at ho'

theorem read_of_finished (ho : s.old = some o) (hr : readFile c o cursor limit = ⟨[], 0, 0⟩)
    (removeFails : Bool) :
    s.read c cursor limit removeFails =
      if removeFails then (none, { s with readUndecodable := 0 })
      else ((readCurrent c (countUndecodable { s with old := none, readUndecodable := 0 }) 0
        limit).map some id) := by
  rw [read_of_exhausted ho (by rw [hr]), hr]

theorem read_of_no_old (ho : s.old = none) (removeFails : Bool) :
    s.read c cursor limit removeFails =
      (readCurrent c { s with readUndecodable := 0 } cursor limit).map some id := by
  unfold read
  split
  · rename_i o' ho'
    rw [ho] at ho'
    simp at ho'
  · rfl

end Spool

/-! ### Files of whole lines -/

variable {a rs : List SpanRecord}

section Lines
variable (c : LineCodec)

/-- A record's JSON, empty when it does not marshal. -/
def LineCodec.json (r : SpanRecord) : List UInt8 := (c.marshal r).getD []

/-- The file that holds these records. -/
def LineCodec.file (rs : List SpanRecord) : List UInt8 := joinLines nl c.json rs

/-- All records marshal. -/
def LineCodec.Writable (rs : List SpanRecord) : Prop := ∀ r ∈ rs, (c.marshal r).isSome

variable {c}

@[simp] theorem file_nil : c.file [] = [] := rfl

@[simp] theorem file_append (a b : List SpanRecord) : c.file (a ++ b) = c.file a ++ c.file b :=
  joinLines_append a b

theorem LineCodec.Writable.append {b : List SpanRecord} (ha : c.Writable a) (hb : c.Writable b) :
    c.Writable (a ++ b) := fun r hr => (mem_append.mp hr).elim (ha r) (hb r)

/-- Reading from the boundary between two lines. -/
theorem readFile_file {b : List SpanRecord} (hb : c.Writable b) (limit : ℕ) :
    Spool.readFile c (c.file (a ++ b)) (c.file a).length limit =
      ⟨(b.take limit).map c.canon, (c.file (b.take limit)).length, 0⟩ := by
  have hnl : ∀ r, nl ∉ c.json r := fun r => by
    cases hm : c.marshal r with
    | none => simp [LineCodec.json, hm]
    | some d => simpa [LineCodec.json, hm] using c.no_newline hm
  have hdec : ∀ r ∈ b, c.unmarshal (c.json r ++ [nl]) = some (c.canon r) := fun r hr => by
    obtain ⟨d, hd⟩ := Option.isSome_iff_exists.mp (hb r hr)
    simpa [LineCodec.json, hd] using c.round_trip hd
  have hdrop : (c.file (a ++ b)).drop (c.file a).length = joinLines nl c.json b ++ [] := by
    rw [file_append, drop_left, append_nil]
    rfl
  rw [Spool.readFile, hdrop, scanLines_joinLines hnl not_mem_nil _ _ limit _ hdec]
  · rfl
  · rw [append_nil]
    exact length_le_joinLines b

/-- Reading at the end of a file of whole lines. -/
theorem readFile_end (limit : ℕ) :
    Spool.readFile c (c.file a) (c.file a).length limit = ⟨[], 0, 0⟩ := by
  have := readFile_file (c := c) (a := a) (b := []) (forall_mem_nil _) limit
  simpa using this

theorem append_eq : ∀ {rs : List SpanRecord} (s : Spool), c.Writable rs →
    s.append c rs =
      ({ s with cur := s.cur ++ c.file rs, size := s.size + (c.file rs).length }, true)
  | [], s, _ => by simp [Spool.append]
  | r :: rs, s, h => by
    obtain ⟨d, hd⟩ := Option.isSome_iff_exists.mp (h r mem_cons_self)
    have hjson : c.json r = d := by simp [LineCodec.json, hd]
    rw [Spool.append]
    simp only [hd]
    rw [append_eq _ fun x hx => h x (mem_cons_of_mem _ hx)]
    simp only [LineCodec.file, joinLines_cons, hjson, append_assoc, length_append,
      length_cons, length_nil, cons_append, nil_append]
    rw [Nat.add_assoc, Nat.add_assoc, Nat.add_comm 1]

/-- The spool with the lines of these records appended. -/
def Spool.appended (c : LineCodec) (s : Spool) (rs : List SpanRecord) : Spool :=
  { s with cur := s.cur ++ c.file rs, size := s.size + (c.file rs).length }

theorem rotates_iff (s : Spool) (h : c.Writable rs) :
    s.rotates c rs = true ↔ s.maxBytes ≤ s.size + (c.file rs).length := by
  rw [Spool.rotates, append_eq s h, decide_eq_true_iff]

theorem write_eq (s : Spool) (h : c.Writable rs) :
    s.write c rs =
      (if s.rotates c rs then (s.appended c rs).rotate else s.appended c rs, true) := by
  rw [Spool.write, append_eq s h]
  by_cases hr : s.rotates c rs = true
  · rw [if_pos hr]
    exact if_pos ((rotates_iff s h).mp hr)
  · rw [if_neg hr]
    exact if_neg fun hle => hr ((rotates_iff s h).mpr hle)

theorem writable_of_append : ∀ {rs : List SpanRecord} {s : Spool},
    (s.append c rs).2 = true → c.Writable rs
  | [], _, _ => nofun
  | r :: rs, s, h => by
    cases hm : c.marshal r with
    | none => simp [Spool.append, hm] at h
    | some d =>
      simp only [Spool.append, hm] at h
      intro x hx
      rcases mem_cons.mp hx with rfl | hx
      · simp [hm]
      · exact writable_of_append h x hx

theorem writable_of_write (h : (s.write c rs).2 = true) :
    c.Writable rs := by
  refine writable_of_append (s := s) ?_
  unfold Spool.write at h
  generalize s.append c rs = p at h ⊢
  obtain ⟨s', ok⟩ := p
  cases ok with
  | false => simp at h
  | true => rfl

end Lines

end Spanbarn.Forward
