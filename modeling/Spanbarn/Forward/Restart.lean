import Mathlib.Algebra.Order.Group.Multiset
import Mathlib.Data.List.TakeWhile
import Mathlib.Tactic.Abel
import Spanbarn.Forward.Forwarder

/-! The spool across crashes.

    A crash leaves whole lines and at most a piece of the line that was being written. `NewSpool` opens
    the file for appending, so the first line written afterwards is added to that piece:

        {"a":1}⏎ {"b"           crash
        {"a":1}⏎ {"b"{"c":3}⏎   restart, Write c: one line that does not decode

    The reader passes the cursor of one `Read` to the next, saves it when it likes and goes back to the
    saved one after a restart. A cursor handed out before the old file was removed is stale: it is an
    offset into a file that is gone. -/

namespace Spanbarn.Forward
open List Spanbarn.Schemes Spanbarn.Model

/-! ### Writes that do not end -/

/-- The records `Write` gets to before one does not marshal. -/
def LineCodec.marshalled (c : LineCodec) (rs : List SpanRecord) : List SpanRecord :=
  rs.takeWhile fun r => (c.marshal r).isSome

/-- The lines of a `Write` of which only so many bytes reach the disk, with the records whose lines
    are whole. -/
def Spool.appendTorn (c : LineCodec) (s : Spool) : List SpanRecord → ℕ → Spool × List SpanRecord
  | [], _ => (s, [])
  | r :: rs, room =>
    match c.marshal r with
    | none => (s, [])
    | some data =>
      let line := data ++ [nl]
      if room < line.length then ({ s with cur := s.cur ++ line.take room }, [])
      else
        let (s', done) := appendTorn c
          { s with cur := s.cur ++ line, size := s.size + line.length } rs (room - line.length)
        (s', r :: done)

/-- `NewSpool` on the files that are there. -/
def Spool.reopen (disk : Spool) (maxBytes : ℤ) : Spool :=
  { newSpool maxBytes with cur := disk.cur, old := disk.old, size := disk.cur.length }

/-- The current file ends in the middle of a line. -/
def Spool.torn (s : Spool) : Bool := s.cur.getLast?.any fun b => b ≠ nl

theorem append_fst {c : LineCodec} : ∀ (rs : List SpanRecord) (s : Spool),
    (s.append c rs).1 = s.appended c (c.marshalled rs)
  | [], s => by simp [Spool.append, Spool.appended, LineCodec.marshalled]
  | r :: rs, s => by
    cases hm : c.marshal r with
    | none => simp [Spool.append, Spool.appended, LineCodec.marshalled, hm]
    | some data =>
      have hrest : c.marshalled (r :: rs) = r :: c.marshalled rs := by
        simp [LineCodec.marshalled, hm]
      have hjson : c.json r = data := by simp [LineCodec.json, hm]
      simp only [Spool.append, hm, append_fst rs, hrest]
      simp [Spool.appended, LineCodec.file, hjson]
      omega

theorem write_false {c : LineCodec} {s spool : Spool} {rs : List SpanRecord}
    (h : s.write c rs = (spool, false)) : spool = s.appended c (c.marshalled rs) := by
  rw [← append_fst, eq_comm]
  unfold Spool.write at h
  generalize s.append c rs = p at h ⊢
  obtain ⟨s', _ | _⟩ := p
  · exact (Prod.mk.inj h).1
  · dsimp only at h
    split at h <;> simp at h

theorem marshalled_writable {c : LineCodec} (rs : List SpanRecord) : c.Writable (c.marshalled rs) :=
  fun _ hr => mem_takeWhile_imp (p := fun r => (c.marshal r).isSome) hr

theorem appendTorn_eq {c : LineCodec} : ∀ (rs : List SpanRecord) (s : Spool) (room : ℕ),
    ∃ done piece, c.Writable done ∧ nl ∉ piece ∧ s.appendTorn c rs room =
      ({ s.appended c done with cur := (s.appended c done).cur ++ piece }, done)
  | [], s, room => ⟨[], [], forall_mem_nil _, not_mem_nil, by
      simp [Spool.appendTorn, Spool.appended]⟩
  | r :: rs, s, room => by
    cases hm : c.marshal r with
    | none =>
      exact ⟨[], [], forall_mem_nil _, not_mem_nil, by
        simp [Spool.appendTorn, Spool.appended, hm]⟩
    | some data =>
      have hjson : c.json r = data := by simp [LineCodec.json, hm]
      by_cases hroom : room < (data ++ [nl]).length
      · have htake : (data ++ [nl]).take room = data.take room := by
          rw [length_append, length_singleton] at hroom
          rw [take_append_of_le_length (by omega)]
        refine ⟨[], data.take room, forall_mem_nil _,
          fun h => c.no_newline hm (mem_of_mem_take h), ?_⟩
        simp only [Spool.appendTorn, hm, if_pos hroom, htake]
        simp [Spool.appended]
      · obtain ⟨done, piece, hdone, hpiece, he⟩ := appendTorn_eq (c := c) rs
          { s with cur := s.cur ++ (data ++ [nl]), size := s.size + (data ++ [nl]).length }
          (room - (data ++ [nl]).length)
        refine ⟨r :: done, piece, ?_, hpiece, ?_⟩
        · exact forall_mem_cons.mpr ⟨by simp [hm], hdone⟩
        · simp only [Spool.appendTorn, hm, if_neg hroom, he]
          simp [Spool.appended, LineCodec.file, hjson]
          omega

namespace Restart

/-! ### The system -/

/-- The spool and its reader, with the history: the records whose `Write` returned without error; those
    with a whole line in a rotated file, in the current one, or in one that a rotation emptied; those
    whose line was added to the piece of another; and what `Read` returned. The two flags say that the
    cursor and the saved one were handed out before an old file was removed. -/
structure Journal where
  spool : Spool
  cursor : ℕ := 0
  saved : ℕ := 0
  stale : Bool := false
  savedStale : Bool := false
  acked : List SpanRecord := []
  kept : List SpanRecord := []
  recent : List SpanRecord := []
  discarded : List SpanRecord := []
  glued : List SpanRecord := []
  returned : List SpanRecord := []

/-- A `Write`, one whose file write fails after some bytes, a `Read` whose caller then moves its cursor
    or not, `SaveCursor`, and a crash with some bytes of a running `Write` on disk, with the restart. -/
inductive Action where
  | write (records : List SpanRecord)
  | writeShort (records : List SpanRecord) (room : ℕ)
  | read (limit : ℕ) (removeFails advance : Bool)
  | save
  | crash (records : List SpanRecord) (room : ℕ) (maxBytes : ℤ)
  deriving Repr

/-- The lines of these records are whole. The first of them was added to a piece, if there was one. -/
def Journal.added (s : Journal) (spool : Spool) (done : List SpanRecord) : Journal :=
  if s.spool.torn then
    { s with spool := spool, recent := s.recent ++ done.drop 1, glued := s.glued ++ done.take 1 }
  else { s with spool := spool, recent := s.recent ++ done }

/-- The current file has become the old one, or was emptied because there was one. -/
def Journal.rotated (s : Journal) (spool : Spool) : Option (List UInt8) → Journal
  | none => { s with spool := spool, kept := s.kept ++ s.recent, recent := [] }
  | some _ => { s with spool := spool, discarded := s.discarded ++ s.recent, recent := [] }

/-- A `Read` has returned; `removed` says that it removed the old file. -/
def Journal.got (s : Journal) (spool : Spool) (records : List SpanRecord) (next : ℕ)
    (advance removed : Bool) : Journal :=
  { s with
    spool := spool
    returned := s.returned ++ records
    cursor := if advance then next else s.cursor
    stale := !advance && (s.stale || removed)
    savedStale := s.savedStale || removed }

def step (c : LineCodec) (s : Journal) : Action → Option Journal
  | .write records =>
    match s.spool.write c records with
    | (spool, false) => some (s.added spool (c.marshalled records))
    | (spool, true) =>
      let s' := { s.added (s.spool.appended c records) records with acked := s.acked ++ records }
      some (if s.spool.rotates c records then s'.rotated spool s.spool.old else s')
  | .writeShort records room =>
    some (s.added (s.spool.appendTorn c records room).1 (s.spool.appendTorn c records room).2)
  | .read limit removeFails advance =>
    match s.spool.read c s.cursor limit removeFails with
    | (none, spool) => some { s with spool := spool }
    | (some (records, next), spool) =>
      some (s.got spool records next advance (s.spool.old.isSome && spool.old.isNone))
  | .save => some { s with
      spool := s.spool.countUndecodable, saved := s.cursor, savedStale := s.stale }
  | .crash records room maxBytes =>
    let s' := s.added (s.spool.appendTorn c records room).1 (s.spool.appendTorn c records room).2
    some { s' with spool := s'.spool.reopen maxBytes, cursor := s.saved, stale := s.savedStale }

/-- A fresh spool and a reader with no saved cursor. -/
def start (maxBytes : ℤ) : Journal := { spool := newSpool maxBytes }

/-- The reader's cursor belongs to the files that are there: it is not stale, or it is at the start, or
    so far out that `Read` starts over. -/
def Journal.Fits (s : Journal) : Prop :=
  s.stale = false ∨ s.cursor = 0 ∨ s.spool.old = none ∧ s.spool.cur.length < s.cursor

/-- Every `Read` asks for something, with a cursor that fits. -/
def ReadsFit (s : Journal) : Action → Prop
  | .read limit _ _ => 0 < limit ∧ s.Fits
  | _ => True

instance (s : Journal) : Decidable s.Fits := inferInstanceAs (Decidable (_ ∨ _ ∨ _ ∧ _))

instance (s : Journal) : ∀ a, Decidable (ReadsFit s a)
  | .read _ _ _ => inferInstanceAs (Decidable (_ ∧ _))
  | .write _ | .writeShort _ _ | .save | .crash _ _ _ => inferInstanceAs (Decidable True)

/-! ### What is on disk -/

section Disk
variable {c : LineCodec}

/-- What the whole lines decode to. -/
def decoded (c : LineCodec) (lines : List (List UInt8)) : Multiset SpanRecord :=
  decodeLines nl c.unmarshal lines

@[simp] theorem decoded_nil : decoded c [] = 0 := rfl

@[simp] theorem decoded_append (a b : List (List UInt8)) :
    decoded c (a ++ b) = decoded c a + decoded c b := by
  simp [decoded]

/-- The records in the form they are read in. -/
def canons (c : LineCodec) (rs : List SpanRecord) : Multiset SpanRecord := rs.map c.canon

@[simp] theorem canons_nil : canons c [] = 0 := rfl

@[simp] theorem canons_append (a b : List SpanRecord) : canons c (a ++ b) = canons c a + canons c b := by
  simp [canons]

/-- Writable records decode, as long as their lines start on their own. -/
theorem decoded_json : ∀ (rs : List SpanRecord), c.Writable rs → decoded c (rs.map c.json) = canons c rs
  | [], _ => rfl
  | r :: rs, h => by
    obtain ⟨hr, hrs⟩ := forall_mem_cons.mp h
    obtain ⟨d, hd⟩ := Option.isSome_iff_exists.mp hr
    have hone : decodeLines nl c.unmarshal [c.json r] = [c.canon r] := by
      simp [decodeLines, LineCodec.json, hd, c.round_trip hd]
    have hsplit : (r :: rs).map c.json = [c.json r] ++ rs.map c.json := rfl
    rw [hsplit, decoded_append, decoded_json rs hrs, decoded, hone]
    rfl

theorem json_no_newline (r : SpanRecord) : nl ∉ c.json r := by
  cases hm : c.marshal r with
  | none => simp [LineCodec.json, hm]
  | some d => simpa [LineCodec.json, hm] using c.no_newline hm

variable {tail : List UInt8}

/-- Lines, and then a piece, are added to a file. If it ended in a piece, the first line may be lost. -/
theorem lined_added {file piece : List UInt8} {lines : List (List UInt8)} {done : List SpanRecord}
    (h : Lined nl file lines tail) (hw : c.Writable done) (hp : nl ∉ piece) :
    ∃ more tail', Lined nl (file ++ c.file done ++ piece) (lines ++ more) tail' ∧
      canons c (if tail = [] then done else done.drop 1) ≤ decoded c more := by
  cases done with
  | nil =>
    refine ⟨[], tail ++ piece, ?_, by simp⟩
    rw [file_nil, append_nil, append_nil]
    exact h.addTail hp
  | cons r rs =>
    obtain ⟨hr, hrs⟩ := forall_mem_cons.mp hw
    have hjson : ∀ d ∈ rs.map c.json, nl ∉ d := by
      intro d hd
      obtain ⟨x, -, rfl⟩ := mem_map.mp hd
      exact json_no_newline x
    have hlines := (h.addLine (json_no_newline (c := c) r)).addLines hjson
    refine ⟨[tail ++ c.json r] ++ rs.map c.json, piece, ?_, ?_⟩
    · have hall := hlines.addTail hp
      rw [joinLines_map] at hall
      simpa [LineCodec.file] using hall
    · rw [decoded_append, decoded_json rs hrs]
      by_cases ht : tail = []
      · have hone : decoded c [c.json r] = canons c [r] :=
          decoded_json [r] (forall_mem_singleton.mpr hr)
        rw [if_pos ht, ht, nil_append, hone, ← canons_append]
        exact le_refl _
      · rw [if_neg ht]
        exact Multiset.le_add_left _ _

theorem torn_eq_false {s : Spool} {lines : List (List UInt8)} (h : Lined nl s.cur lines tail)
    (ht : s.torn = false) : tail = [] := by
  refine h.tail_eq_nil fun b hb => ?_
  simpa [Spool.torn, hb] using ht

/-- What a scan of a file from between two of its lines finds. -/
theorem readFile_lined {file : List UInt8} {a b : List (List UInt8)}
    (h : Lined nl file (a ++ b) tail) {limit : ℕ} (hl : 0 < limit) :
    ∃ x y skipped, b = x ++ y ∧ Spool.readFile c file (joinLines nl id a).length limit =
        ⟨decodeLines nl c.unmarshal x, (joinLines nl id x).length, skipped⟩ ∧
      (decodeLines nl c.unmarshal x = [] → y = []) := by
  have hdrop : file.drop (joinLines nl id a).length = joinLines nl id b ++ tail := by
    rw [h.bytes, joinLines_append, append_assoc, drop_left]
  obtain ⟨x, y, skipped, hb, hscan, hall⟩ := scanLines_lines c.unmarshal h.torn b
    (file.drop (joinLines nl id a).length).length limit
    (by
      rw [hdrop, length_append]
      exact (length_le_joinLines b).trans (Nat.le_add_right _ _))
    fun l hl => h.whole l (mem_append_right _ hl)
  refine ⟨x, y, skipped, hb, ?_, fun hx => hall (by simpa [hx] using hl)⟩
  rw [Spool.readFile, ← hscan, ← hdrop]

end Disk

/-! ### Where the cursor stands -/

/-- Between two lines of the file that `Read` turns to: the lines behind the cursor, and all those
    ahead of it. -/
inductive Place (spool : Spool) (olds curs : List (List UInt8)) (cursor : ℕ)
    (before : List (List UInt8)) : List (List UInt8) → Prop where
  | inOld (b : List (List UInt8)) (ho : spool.old.isSome) (hs : olds = before ++ b)
      (hc : cursor = (joinLines nl id before).length) : Place spool olds curs cursor before (b ++ curs)
  | inCur (b : List (List UInt8)) (ho : spool.old = none) (hs : curs = before ++ b)
      (hc : cursor = (joinLines nl id before).length) : Place spool olds curs cursor before b

/-- A cursor that is not stale stands somewhere, and what is behind it has been returned, on top of
    the files that are gone. -/
def Stands (c : LineCodec) (spool : Spool) (gone : Multiset SpanRecord) (olds curs : List (List UInt8))
    (returned : List SpanRecord) (stale : Bool) (cursor : ℕ) : Prop :=
  stale = false → ∃ before ahead, Place spool olds curs cursor before ahead ∧
    gone + decoded c before ≤ returned

/-- The files hold these lines; the records kept are among what the lines, and the files that are gone,
    decode to; and what is gone has been returned. -/
structure Sound (c : LineCodec) (s : Journal) (gone : Multiset SpanRecord)
    (olds curs : List (List UInt8)) : Prop where
  cur : ∃ tail, Lined nl s.spool.cur curs tail
  old : ∀ o, s.spool.old = some o → ∃ tail, Lined nl o olds tail
  noOld : s.spool.old = none → olds = []
  acked : canons c s.acked ≤
    canons c s.kept + canons c s.recent + (canons c s.discarded + canons c s.glued)
  recent : canons c s.recent ≤ decoded c curs
  kept : canons c s.kept ≤ gone + decoded c olds
  returned : gone ≤ s.returned
  cursor : Stands c s.spool gone olds curs s.returned s.stale s.cursor
  saved : Stands c s.spool gone olds curs s.returned s.savedStale s.saved

theorem sound_start (c : LineCodec) (maxBytes : ℤ) : Sound c (start maxBytes) 0 [] [] where
  cur := ⟨[], lined_nil⟩
  old := nofun
  noOld := fun _ => rfl
  acked := le_refl _
  recent := le_refl _
  kept := le_refl _
  returned := le_refl _
  cursor := fun _ => ⟨[], [], .inCur [] rfl rfl rfl, le_refl _⟩
  saved := fun _ => ⟨[], [], .inCur [] rfl rfl rfl, le_refl _⟩

section Steps
variable {c : LineCodec} {s : Journal} {gone : Multiset SpanRecord} {olds curs : List (List UInt8)}

variable {spool spool' : Spool} {returned : List SpanRecord} {stale : Bool} {cursor limit : ℕ}
variable {s' : Journal} {b before ahead : List (List UInt8)} {o : List UInt8}

/-- Lines added at the end of the current file are ahead. -/
theorem Stands.added (h : Stands c spool gone olds curs returned stale cursor)
    (ho : spool'.old = spool.old) (more : List (List UInt8)) :
    Stands c spool' gone olds (curs ++ more) returned stale cursor := by
  intro hst
  obtain ⟨before, ahead, hp, hle⟩ := h hst
  cases hp with
  | inOld b hold hs hc => exact ⟨before, b ++ (curs ++ more), .inOld b (ho ▸ hold) hs hc, hle⟩
  | inCur b hold hs hc =>
    exact ⟨before, ahead ++ more,
      .inCur (ahead ++ more) (ho.trans hold) (by rw [hs, append_assoc]) hc, hle⟩

theorem Stands.same (h : Stands c spool gone olds curs returned stale cursor) (spool' : Spool)
    (ho : spool'.old = spool.old) : Stands c spool' gone olds curs returned stale cursor := by
  have hadded := h.added ho []
  rwa [append_nil] at hadded

theorem added_eq (s : Journal) (spool : Spool) (done : List SpanRecord) :
    ∃ r g, s.added spool done =
        { s with spool := spool, recent := s.recent ++ r, glued := s.glued ++ g } ∧
      g ++ r = done ∧ r = if s.spool.torn then done.drop 1 else done := by
  by_cases ht : s.spool.torn = true
  · exact ⟨done.drop 1, done.take 1, if_pos ht, take_append_drop .., (if_pos ht).symm⟩
  · refine ⟨done, [], ?_, nil_append _, (if_neg ht).symm⟩
    rw [Journal.added, if_neg ht, append_nil]

theorem Sound.added (h : Sound c s gone olds curs) {done : List SpanRecord} {piece : List UInt8}
    (spool : Spool) (acked : List SpanRecord) (hw : c.Writable done) (hp : nl ∉ piece)
    (hcur : spool.cur = s.spool.cur ++ c.file done ++ piece) (hold : spool.old = s.spool.old)
    (hacked : canons c acked ≤ canons c s.acked + canons c done) :
    ∃ curs', Sound c { s.added spool done with acked := acked } gone olds curs' := by
  obtain ⟨r, g, hadd, hdone, hr⟩ := added_eq s spool done
  obtain ⟨tail, hlined⟩ := h.cur
  obtain ⟨more, tail', hmore, hdec⟩ := lined_added hlined hw hp
  have hrec : canons c r ≤ decoded c more := by
    refine le_trans ?_ hdec
    rw [hr]
    split
    · split
      · have hsplit := canons_append (c := c) (done.take 1) (done.drop 1)
        rw [take_append_drop] at hsplit
        rw [hsplit]
        exact Multiset.le_add_left _ _
      · exact le_refl _
    · next ht => rw [if_pos (torn_eq_false hlined (by simpa using ht))]
  rw [hadd]
  refine ⟨curs ++ more, ⟨tail', hcur ▸ hmore⟩, fun o ho => h.old o (hold ▸ ho),
    fun ho => h.noOld (hold ▸ ho), ?_, ?_, h.kept, h.returned, h.cursor.added hold more,
    h.saved.added hold more⟩
  · rw [← hdone, canons_append] at hacked
    rw [canons_append, canons_append]
    refine (hacked.trans (add_le_add h.acked (le_refl _))).trans_eq ?_
    abel
  · rw [canons_append, decoded_append]
    exact add_le_add h.recent hrec

/-- The current file becomes the old one. -/
theorem Stands.renamed (h : Stands c spool gone olds curs returned stale cursor)
    (hnone : spool.old = none) (ho : spool'.old.isSome) :
    Stands c spool' gone curs [] returned stale cursor := by
  intro hst
  obtain ⟨before, ahead, hp, hle⟩ := h hst
  cases hp with
  | inOld b hold => rw [hnone] at hold; simp at hold
  | inCur b hold hs hc => exact ⟨before, ahead ++ [], .inOld ahead ho hs hc, hle⟩

/-- The current file is emptied while there is an old one. -/
theorem Stands.emptied (h : Stands c spool gone olds curs returned stale cursor)
    (hsome : spool.old.isSome) (ho : spool'.old = spool.old) :
    Stands c spool' gone olds [] returned stale cursor := by
  intro hst
  obtain ⟨before, ahead, hp, hle⟩ := h hst
  cases hp with
  | inOld b hold hs hc => exact ⟨before, b ++ [], .inOld b (ho ▸ hold) hs hc, hle⟩
  | inCur b hold => rw [hold] at hsome; simp at hsome

theorem Sound.rotate (h : Sound c s gone olds curs) :
    ∃ olds' curs', Sound c (s.rotated s.spool.rotate s.spool.old) gone olds' curs' := by
  cases ho : s.spool.old with
  | none =>
    have hrot : s.spool.rotate = { s.spool with old := some s.spool.cur, cur := [], size := 0 } := by
      simp [Spool.rotate, ho]
    have hkept := h.kept
    rw [h.noOld ho, decoded_nil, add_zero] at hkept
    simp only [Journal.rotated, hrot]
    refine ⟨curs, [], ⟨[], lined_nil⟩, ?_, by simp, ?_, le_refl _, ?_, h.returned,
      h.cursor.renamed ho rfl, h.saved.renamed ho rfl⟩
    · rintro o ⟨⟩
      exact h.cur
    · simpa using h.acked
    · rw [canons_append]
      exact add_le_add hkept h.recent
  | some o =>
    have hrot : s.spool.rotate = { s.spool with cur := [], size := 0 } := by
      simp [Spool.rotate, ho]
    have hsome : s.spool.old.isSome := by simp [ho]
    simp only [Journal.rotated, hrot]
    refine ⟨olds, [], ⟨[], lined_nil⟩, h.old, h.noOld, ?_, le_refl _, h.kept, h.returned,
      h.cursor.emptied hsome rfl, h.saved.emptied hsome rfl⟩
    refine h.acked.trans_eq ?_
    rw [canons_append, canons_nil]
    abel

theorem Sound.write (h : Sound c s gone olds curs) {records : List SpanRecord}
    (hs : step c s (.write records) = some s') : ∃ olds' curs', Sound c s' gone olds' curs' := by
  rcases hw : s.spool.write c records with ⟨spool, _ | _⟩
  · -- a record did not marshal: the lines before it are there
    simp only [step, hw, Option.some.injEq] at hs
    subst hs
    rw [write_false hw]
    obtain ⟨curs', hsound⟩ := h.added (s.spool.appended c (c.marshalled records)) s.acked
      (marshalled_writable records) not_mem_nil (append_nil _).symm rfl
      (Multiset.le_add_right _ _)
    obtain ⟨r, g, hadd, -, -⟩ := added_eq s (s.spool.appended c (c.marshalled records))
      (c.marshalled records)
    rw [hadd] at hsound ⊢
    exact ⟨olds, curs', hsound⟩
  · have hwritable : c.Writable records := writable_of_write (s := s.spool) (by rw [hw])
    have hspool := (Prod.mk.inj ((write_eq s.spool hwritable).symm.trans hw)).1
    obtain ⟨curs', hsound⟩ := h.added (s.spool.appended c records) (s.acked ++ records) hwritable
      not_mem_nil (append_nil _).symm rfl (canons_append s.acked records).le
    simp only [step, hw, Option.some.injEq] at hs
    subst hs
    by_cases hr : s.spool.rotates c records = true
    · rw [if_pos hr] at hspool ⊢
      obtain ⟨r, g, hadd, -, -⟩ := added_eq s (s.spool.appended c records) records
      rw [hadd] at hsound ⊢
      rw [← hspool]
      exact hsound.rotate
    · rw [if_neg hr]
      exact ⟨olds, curs', hsound⟩

theorem Sound.torn (h : Sound c s gone olds curs) (records : List SpanRecord) (room : ℕ) :
    ∃ curs', Sound c (s.added (s.spool.appendTorn c records room).1
      (s.spool.appendTorn c records room).2) gone olds curs' := by
  obtain ⟨done, piece, hdone, hpiece, he⟩ := appendTorn_eq (c := c) records s.spool room
  rw [he]
  obtain ⟨curs', hsound⟩ := h.added
    { s.spool.appended c done with cur := (s.spool.appended c done).cur ++ piece } s.acked hdone hpiece
    rfl rfl (Multiset.le_add_right _ _)
  obtain ⟨r, g, hadd, -, -⟩ := added_eq s
    { s.spool.appended c done with cur := (s.spool.appended c done).cur ++ piece } done
  rw [hadd] at hsound ⊢
  exact ⟨curs', hsound⟩

/-- A restart opens the files that are there, and the reader goes back to its saved cursor. -/
theorem Sound.crash (h : Sound c s gone olds curs) (records : List SpanRecord) (room : ℕ)
    (maxBytes : ℤ) (hs : step c s (.crash records room maxBytes) = some s') :
    ∃ curs', Sound c s' gone olds curs' := by
  obtain ⟨curs', hsound⟩ := h.torn records room
  simp only [step, Option.some.injEq] at hs
  subst hs
  obtain ⟨r, g, hadd, -, -⟩ := added_eq s (s.spool.appendTorn c records room).1
    (s.spool.appendTorn c records room).2
  rw [hadd] at hsound ⊢
  exact ⟨curs', hsound.cur, hsound.old, hsound.noOld, hsound.acked, hsound.recent, hsound.kept,
    hsound.returned, hsound.saved.same _ rfl, hsound.saved.same _ rfl⟩

/-! ### Reading -/

/-- A `Read` that returned these records: it passed lines ahead of the cursor, in the files that are
    still there or by removing the old one. -/
structure Found (c : LineCodec) (s : Journal) (gone : Multiset SpanRecord)
    (olds curs before ahead : List (List UInt8)) (spool : Spool) (records : List SpanRecord) (next : ℕ)
    (gone' : Multiset SpanRecord) (olds' before' ahead' : List (List UInt8)) : Prop where
  cur : spool.cur = s.spool.cur
  old : spool.old = s.spool.old ∧ olds' = olds ∧ gone' = gone ∨
    s.spool.old.isSome ∧ spool.old = none ∧ olds' = []
  place : Place spool olds' curs next before' ahead'
  passed : gone' + decoded c before' = gone + decoded c before + (records : Multiset SpanRecord)
  total : gone' + decoded c olds' = gone + decoded c olds
  behind : gone' ≤ gone + decoded c before
  finished : records = [] → decoded c ahead = 0
  shorter : records ≠ [] → ahead'.length < ahead.length

theorem length_lt_of_decoded {x y : List (List UInt8)} (h : decodeLines nl c.unmarshal x ≠ []) :
    y.length < (x ++ y).length := by
  have hx : x ≠ [] := by
    rintro rfl
    exact h rfl
  have := length_pos_iff.mpr hx
  rw [length_append]
  omega

/-- The part of `Read` that turns to the current file, from between two of its lines or from beyond its
    end. -/
theorem readCurrent_lined (spool : Spool) {tail : List UInt8} {a : List (List UInt8)}
    (h : Lined nl spool.cur (a ++ b) tail) (hl : 0 < limit)
    (hc : cursor = (joinLines nl id a).length ∨ spool.cur.length < cursor ∧ a = []) :
    ∃ x y n, b = x ++ y ∧ spool.readCurrent c cursor limit =
        ((decodeLines nl c.unmarshal x, (joinLines nl id (a ++ x)).length),
          { spool with readUndecodable := n }) ∧
      (decodeLines nl c.unmarshal x = [] → y = []) := by
  have hpos : (if 0 < cursor ∧ spool.cur.length < cursor then 0 else cursor) =
      (joinLines nl id a).length := by
    rcases hc with rfl | ⟨hlt, rfl⟩
    · rw [if_neg]
      rw [h.bytes, joinLines_append, length_append, length_append]
      omega
    · rw [if_pos ⟨by omega, hlt⟩]
      rfl
  obtain ⟨x, y, skipped, hb, hread, hall⟩ := readFile_lined (c := c) h hl
  refine ⟨x, y, spool.readUndecodable + skipped, hb, ?_, hall⟩
  simp [Spool.readCurrent, hpos, hread]

theorem read_sweeps (ho : spool.old = some o)
    (hr : (Spool.readFile c o cursor limit).records = []) :
    ∃ swept : Spool, swept.cur = spool.cur ∧ swept.old = none ∧
      spool.read c cursor limit false = (swept.readCurrent c 0 limit).map some id := by
  refine ⟨_, ?_, ?_, Spool.read_of_exhausted ho hr false⟩ <;> rfl

/-- `Read` finds records in the old file. -/
theorem found_old (gone : Multiset SpanRecord) (curs : List (List UInt8)) {x y : List (List UInt8)}
    {skipped : ℕ} (ho : s.spool.old = some o) (hs : olds = before ++ b)
    (hc : s.cursor = (joinLines nl id before).length) (hb : b = x ++ y)
    (hread : Spool.readFile c o s.cursor limit =
      ⟨decodeLines nl c.unmarshal x, (joinLines nl id x).length, skipped⟩)
    (hx : decodeLines nl c.unmarshal x ≠ []) (removeFails : Bool) :
    ∃ spool next, s.spool.read c s.cursor limit removeFails =
        (some (decodeLines nl c.unmarshal x, next), spool) ∧
      Found c s gone olds curs before (b ++ curs) spool (decodeLines nl c.unmarshal x) next
        gone olds (before ++ x) (y ++ curs) := by
  have hold := Spool.read_of_old ho (by rw [hread]; exact hx) removeFails
  rw [hread] at hold
  refine ⟨_, _, hold, rfl, .inl ⟨rfl, rfl, rfl⟩, ?_, ?_, rfl, Multiset.le_add_right _ _,
    fun h => absurd h hx, fun _ => ?_⟩
  · refine .inOld y (by simp [ho]) (by rw [hs, hb, append_assoc]) ?_
    rw [hc, joinLines_append, length_append]
  · rw [decoded_append, add_assoc]
    rfl
  · rw [hb, append_assoc]
    exact length_lt_of_decoded hx

/-- `Read` finds nothing more in the old file and removes it. -/
theorem found_removed (h : Sound c s gone olds curs) (hl : 0 < limit) (ho : s.spool.old = some o)
    (hs : olds = before ++ b) (hb : decoded c b = 0)
    (hread : (Spool.readFile c o s.cursor limit).records = []) :
    ∃ spool records next before' ahead',
      s.spool.read c s.cursor limit false = (some (records, next), spool) ∧
      Found c s gone olds curs before (b ++ curs) spool records next
        (gone + decoded c olds) [] before' ahead' := by
  have holds : decoded c olds = decoded c before := by rw [hs, decoded_append, hb, add_zero]
  obtain ⟨swept, hsame, hnone, hsweep⟩ := read_sweeps ho hread
  obtain ⟨tail, hcur⟩ := h.cur
  rw [← hsame] at hcur
  obtain ⟨x, y, n, hcurs, hrc, hend⟩ :=
    readCurrent_lined (c := c) (a := []) swept hcur hl (.inl rfl)
  rw [joinLines_nil, length_nil] at hrc
  rw [hrc] at hsweep
  refine ⟨_, _, _, x, y, hsweep, hsame, .inr ⟨by simp [ho], hnone, rfl⟩, .inCur y hnone hcurs rfl, ?_,
    ?_, holds ▸ le_refl _, fun hx => ?_, fun hx => ?_⟩
  · rw [holds]
    rfl
  · rw [decoded_nil, add_zero]
  · have hx' : decoded c x = 0 := by rw [decoded, hx]; rfl
    rw [decoded_append, hb, hcurs, hend hx, append_nil, hx']
    rfl
  · have := length_lt_of_decoded (y := y) hx
    rw [hcurs]
    simp only [length_append] at this ⊢
    omega

/-- `Read` without an old file. -/
theorem found_current (h : Sound c s gone olds curs) (hl : 0 < limit) (ho : s.spool.old = none)
    (hs : curs = before ++ b)
    (hc : s.cursor = (joinLines nl id before).length ∨ s.spool.cur.length < s.cursor ∧ before = [])
    (removeFails : Bool) :
    ∃ spool records next before' ahead',
      s.spool.read c s.cursor limit removeFails = (some (records, next), spool) ∧
      Found c s gone olds curs before b spool records next gone olds before' ahead' := by
  obtain ⟨tail, hcur⟩ := h.cur
  rw [hs] at hcur
  obtain ⟨x, y, n, hb, hrc, hend⟩ := readCurrent_lined (c := c)
    { s.spool with readUndecodable := 0 } hcur hl hc
  have hread : s.spool.read c s.cursor limit removeFails = _ := Spool.read_of_no_old ho removeFails
  rw [hrc] at hread
  refine ⟨_, _, _, before ++ x, y, hread, rfl, .inl ⟨rfl, rfl, rfl⟩,
    .inCur y ho (by rw [hs, hb, append_assoc]) rfl, ?_, rfl, Multiset.le_add_right _ _,
    fun hx => ?_, fun hx => ?_⟩
  · rw [decoded_append, add_assoc]
    rfl
  · rw [hb, hend hx, append_nil, decoded, hx]
    rfl
  · rw [hb]
    exact length_lt_of_decoded hx

/-- Where `Read` starts: where the cursor stands, or at the start of the current file with a cursor
    beyond its end. -/
inductive Entry (s : Journal) (olds curs before : List (List UInt8)) : List (List UInt8) → Prop where
  | stands {ahead : List (List UInt8)} (h : Place s.spool olds curs s.cursor before ahead) :
      Entry s olds curs before ahead
  | beyond (ho : s.spool.old = none) (hlt : s.spool.cur.length < s.cursor) (hb : before = []) :
      Entry s olds curs before curs

theorem Entry.split (h : Entry s olds curs before ahead) (hs : s.spool.old = none → olds = []) :
    olds ++ curs = before ++ ahead := by
  cases h with
  | stands hp =>
    cases hp with
    | inOld b ho hb => rw [hb, append_assoc]
    | inCur b ho hb => rw [hs ho, hb, nil_append]
  | beyond ho hlt hb => rw [hs ho, hb]

/-- A cursor that fits has a place to start from, and what is behind it has been returned. -/
theorem Sound.entry (h : Sound c s gone olds curs) (hf : s.Fits) :
    ∃ before ahead, Entry s olds curs before ahead ∧ gone + decoded c before ≤ s.returned := by
  have hgone : gone + decoded c [] ≤ s.returned := by
    rw [decoded_nil, add_zero]
    exact h.returned
  rcases hf with hst | h0 | ⟨ho, hlt⟩
  · obtain ⟨before, ahead, hp, hle⟩ := h.cursor hst
    exact ⟨before, ahead, .stands hp, hle⟩
  · cases ho : s.spool.old with
    | none => exact ⟨[], curs, .stands (.inCur curs ho rfl h0), hgone⟩
    | some o => exact ⟨[], olds ++ curs, .stands (.inOld olds (by simp [ho]) rfl h0), hgone⟩
  · exact ⟨[], curs, .beyond ho hlt rfl, hgone⟩

/-- What a `Read` finds, unless the remove of a finished old file fails. -/
theorem Sound.found (h : Sound c s gone olds curs) (he : Entry s olds curs before ahead)
    (hl : 0 < limit) (removeFails : Bool) :
    (∃ n, removeFails = true ∧
      s.spool.read c s.cursor limit removeFails = (none, { s.spool with readUndecodable := n })) ∨
    ∃ spool records next gone' olds' before' ahead',
      s.spool.read c s.cursor limit removeFails = (some (records, next), spool) ∧
      Found c s gone olds curs before ahead spool records next gone' olds' before' ahead' := by
  have hcurrent : ∀ {b}, s.spool.old = none → curs = before ++ b →
      (s.cursor = (joinLines nl id before).length ∨ s.spool.cur.length < s.cursor ∧ before = []) →
      ∃ spool records next gone' olds' before' ahead',
        s.spool.read c s.cursor limit removeFails = (some (records, next), spool) ∧
        Found c s gone olds curs before b spool records next gone' olds' before' ahead' := by
    intro b ho hs hc
    obtain ⟨spool, records, next, before', ahead', hread, hfound⟩ :=
      found_current h hl ho hs hc removeFails
    exact ⟨spool, records, next, gone, olds, before', ahead', hread, hfound⟩
  rcases he with hp | ⟨ho, hlt, hb⟩
  · cases hp with
    | inCur b ho hs hc => exact .inr (hcurrent ho hs (.inl hc))
    | inOld b hsome hs hc =>
      obtain ⟨o, ho⟩ := Option.isSome_iff_exists.mp hsome
      obtain ⟨tail, hlined⟩ := h.old o ho
      rw [hs] at hlined
      obtain ⟨x, y, skipped, hb, hread, hall⟩ := readFile_lined (c := c) hlined hl
      rw [← hc] at hread
      by_cases hx : decodeLines nl c.unmarshal x = []
      · have hrecords : (Spool.readFile c o s.cursor limit).records = [] := by rw [hread]; exact hx
        have hnone : decoded c b = 0 := by
          rw [hb, hall hx, append_nil, decoded, hx]
          rfl
        cases removeFails with
        | true => exact .inl ⟨_, rfl, Spool.read_of_exhausted ho hrecords true⟩
        | false =>
          obtain ⟨spool, records, next, before', ahead', hr, hfound⟩ :=
            found_removed h hl ho hs hnone hrecords
          exact .inr ⟨spool, records, next, _, [], before', ahead', hr, hfound⟩
      · obtain ⟨spool, next, hr, hfound⟩ := found_old gone curs ho hs hc hb hread hx removeFails
        exact .inr ⟨spool, _, next, gone, olds, _, _, hr, hfound⟩
  · exact .inr (hcurrent ho (by rw [hb]; rfl) (.inr ⟨hlt, hb⟩))

theorem coe_le_append (a b : List SpanRecord) :
    (a : Multiset SpanRecord) ≤ (a ++ b : List SpanRecord) := by
  rw [← Multiset.coe_add]
  exact Multiset.le_add_right _ _

section Got
variable {before ahead olds' before' ahead' : List (List UInt8)} {spool : Spool}
  {records : List SpanRecord} {next : ℕ} {gone' : Multiset SpanRecord}

/-- A cursor that is not moved stays where it is, or becomes stale. -/
theorem Stands.after {stale : Bool} {cursor : ℕ}
    (h : Stands c s.spool gone olds curs s.returned stale cursor)
    (hf : Found c s gone olds curs before ahead spool records next gone' olds' before' ahead') :
    Stands c spool gone' olds' curs (s.returned ++ records)
      (stale || (s.spool.old.isSome && spool.old.isNone)) cursor := by
  intro hst
  obtain ⟨hstale, hkept⟩ := Bool.or_eq_false_iff.mp hst
  rcases hf.old with ⟨hold, rfl, rfl⟩ | ⟨hsome, hnone, -⟩
  · obtain ⟨b, a, hp, hle⟩ := h.same spool hold hstale
    exact ⟨b, a, hp, hle.trans (coe_le_append _ _)⟩
  · simp [hsome, hnone] at hkept

theorem Sound.got (h : Sound c s gone olds curs) (hle : gone + decoded c before ≤ s.returned)
    (hf : Found c s gone olds curs before ahead spool records next gone' olds' before' ahead')
    (advance : Bool) :
    Sound c (s.got spool records next advance (s.spool.old.isSome && spool.old.isNone))
      gone' olds' curs := by
  refine ⟨?_, fun o ho => ?_, fun ho => ?_, h.acked, h.recent, ?_,
    (hf.behind.trans hle).trans (coe_le_append _ _), ?_, h.saved.after hf⟩
  · obtain ⟨tail, hl⟩ := h.cur
    exact ⟨tail, by simpa only [Journal.got, hf.cur] using hl⟩
  · rcases hf.old with ⟨hold, rfl, -⟩ | ⟨-, hnone, -⟩
    · exact h.old o (hold ▸ ho)
    · simp [Journal.got, hnone] at ho
  · rcases hf.old with ⟨hold, rfl, -⟩ | ⟨-, -, rfl⟩
    · exact h.noOld (hold ▸ ho)
    · rfl
  · rw [hf.total]
    exact h.kept
  · cases advance with
    | false => exact h.cursor.after hf
    | true =>
      refine fun _ => ⟨before', ahead', hf.place, ?_⟩
      rw [hf.passed]
      simp only [Journal.got, ← Multiset.coe_add]
      exact add_le_add hle (le_refl _)

end Got

/-- With nothing decodable ahead, everything kept has been returned. -/
theorem Sound.all_returned (h : Sound c s gone olds curs) (he : Entry s olds curs before ahead)
    (hle : gone + decoded c before ≤ s.returned) (hdone : decoded c ahead = 0) :
    canons c s.kept + canons c s.recent ≤ s.returned := by
  have hsplit : decoded c olds + decoded c curs = decoded c before := by
    rw [← decoded_append, he.split h.noOld, decoded_append, hdone, add_zero]
  calc canons c s.kept + canons c s.recent
      ≤ gone + decoded c olds + decoded c curs := add_le_add h.kept h.recent
    _ = gone + decoded c before := by rw [add_assoc, hsplit]
    _ ≤ s.returned := hle

theorem Sound.read (h : Sound c s gone olds curs) {removeFails advance : Bool} (hl : 0 < limit)
    (hf : s.Fits) (hs : step c s (.read limit removeFails advance) = some s') :
    ∃ gone' olds', Sound c s' gone' olds' curs := by
  obtain ⟨before, ahead, hentry, hle⟩ := h.entry hf
  obtain ⟨n, -, hr⟩ | ⟨spool, records, next, gone', olds', before', ahead', hr, hfound⟩ :=
    h.found hentry hl removeFails
  · simp only [step, hr, Option.some.injEq] at hs
    subst hs
    exact ⟨gone, olds, h.cur, h.old, h.noOld, h.acked, h.recent, h.kept, h.returned,
      h.cursor.same _ rfl, h.saved.same _ rfl⟩
  · simp only [step, hr, Option.some.injEq] at hs
    subst hs
    exact ⟨gone', olds', h.got hle hfound advance⟩

theorem sound_step {a : Action} (h : Sound c s gone olds curs) (hf : ReadsFit s a)
    (hs : step c s a = some s') : ∃ gone' olds' curs', Sound c s' gone' olds' curs' := by
  cases a with
  | write records => exact ⟨gone, h.write hs⟩
  | writeShort records room =>
    cases hs
    exact ⟨gone, olds, h.torn records room⟩
  | read limit removeFails advance =>
    obtain ⟨gone', olds', h'⟩ := h.read hf.1 hf.2 hs
    exact ⟨gone', olds', curs, h'⟩
  | save =>
    cases hs
    exact ⟨gone, olds, curs, h.cur, h.old, h.noOld, h.acked, h.recent, h.kept, h.returned,
      h.cursor.same _ rfl, h.cursor.same _ rfl⟩
  | crash records room maxBytes => exact ⟨gone, olds, h.crash records room maxBytes hs⟩

end Steps

/-! ### Nothing is lost -/

/-- `n` reads one after the other, each from the cursor of the one before. -/
def readsOn (limit n : ℕ) : List Action := List.replicate n (.read limit false true)

/-- Reading on returns everything that is kept: every read passes a line, or nothing is left. -/
theorem read_all {c : LineCodec} {limit : ℕ} (hl : 0 < limit) :
    ∀ (k : ℕ) {s : Journal} {gone : Multiset SpanRecord} {olds curs before ahead : List (List UInt8)},
      Sound c s gone olds curs → Entry s olds curs before ahead →
      gone + decoded c before ≤ s.returned → ahead.length ≤ k →
      ∃ n s', run (step c) s (readsOn limit n) = some s' ∧
        canons c s.kept + canons c s.recent ≤ s'.returned := by
  intro k
  induction k with
  | zero =>
    intro s gone olds curs before ahead h he hle hk
    obtain rfl := length_eq_zero_iff.mp (Nat.le_zero.mp hk)
    exact ⟨0, s, rfl, h.all_returned he hle rfl⟩
  | succ k ih =>
    intro s gone olds curs before ahead h he hle hk
    by_cases hdone : decoded c ahead = 0
    · exact ⟨0, s, rfl, h.all_returned he hle hdone⟩
    obtain ⟨n, hfalse, -⟩ | ⟨spool, records, next, gone', olds', before', ahead', hr, hf⟩ :=
      h.found he hl false
    · cases hfalse
    have hne : records ≠ [] := fun hnil => hdone (hf.finished hnil)
    have hlt := hf.shorter hne
    have hle' : gone' + decoded c before' ≤ (s.returned ++ records : List SpanRecord) := by
      rw [hf.passed, ← Multiset.coe_add]
      exact add_le_add hle (le_refl _)
    obtain ⟨n, s', hrun, hall⟩ := ih (h.got hle hf true) (.stands hf.place) hle' (by omega)
    refine ⟨n + 1, s', ?_, hall⟩
    rw [readsOn, replicate_succ]
    refine run_cons.mpr ⟨_, ?_, hrun⟩
    simp [step, hr]

/-- A crash leaves the first byte of a line, and the restarted process adds the next line to it. -/
def tornRun : List Action :=
  [.write [spanA], .crash [spanA] 1 100, .write [spanB], .read 500 false true, .read 500 false true]

/-- The reader at the end of the file. -/
def tornEnd : Journal :=
  { spool := { newSpool 100 with cur := [97, 10, 97, 98, 10], size := 5 }
    cursor := 5
    acked := [spanA, spanB]
    recent := [spanA]
    glued := [spanB]
    returned := [spanA] }

/-- A read at the end of the file changes nothing. -/
theorem tornEnd_reads (limit : ℕ) :
    ∀ n, run (step pairCodec) tornEnd (readsOn limit n) = some tornEnd
  | 0 => rfl
  | n + 1 => run_cons.mpr ⟨tornEnd, rfl, tornEnd_reads limit n⟩

/-- The reader saves its cursor, and two crashes later it reads the record behind the lost one. -/
def recoveredRun : List Action :=
  [.write [spanA], .read 1 false true, .save, .crash [spanB] 1 100, .write [spanA, spanB],
    .crash [] 0 100]

end Restart

end Spanbarn.Forward
