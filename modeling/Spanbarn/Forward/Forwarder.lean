import Mathlib.Data.List.Basic
import Mathlib.Data.List.Perm.Basic
import Spanbarn.Schemes.Run
import Spanbarn.Forward.Spool

/-! The forwarder over the spool: what it publishes, over every interleaving with the writers.

    `forwardBatch` reads under the spool's lock, publishes without it and moves its cursor when the
    publish went through, so writes may also fall between a read and the end of its publish. A read
    that finds nothing leaves the cursor where it was; after the read that removes the old file that is
    an offset into a file that is gone. Such a cursor is past the end of the current file, where Read
    starts over, until a rotation turns the current file into the old one: there nothing starts over. -/

namespace Spanbarn.Forward
open List Spanbarn.Schemes Spanbarn.Model

/-! ### The system -/

/-- Records per `forwardBatch`. -/
def defaultBatchSize : ℕ := 500

/-- What `Publish` answers: done, an error that is retried, or a refusal by a full Redis. -/
inductive Outcome where | ok | failed | queueFull
  deriving DecidableEq, Repr

/-- `forwardBatch` is between calls, or publishing what it read with the cursor after it. -/
inductive Phase where
  | idle
  | publishing (records : List SpanRecord) (next : ℕ)
  deriving DecidableEq, Repr

/-- Spool and forwarder with their history: the records written, those of rotated files and of the
    current file, those a rotation discarded, and those the cursor has moved past, published or
    refused. -/
structure Relay where
  spool : Spool
  cursor : ℕ := 0
  saved : ℕ := 0
  phase : Phase := .idle
  written : List SpanRecord := []
  kept : List SpanRecord := []
  recent : List SpanRecord := []
  discarded : List SpanRecord := []
  taken : List SpanRecord := []
  published : List SpanRecord := []
  refused : List SpanRecord := []

inductive Action where
  | write (records : List SpanRecord)
  | read (removeFails : Bool)
  | publish (out : Outcome)
  | reload
  deriving Repr

/-- The history of a write: the records join the current file, then that file becomes the old one, or
    is emptied because an old one is still there. -/
def Relay.wrote (s : Relay) (spool : Spool) (rotated : Bool) (records : List SpanRecord) : Relay :=
  let s' := { s with spool := spool, written := s.written ++ records }
  match rotated, s.spool.old with
  | false, _ => { s' with recent := s.recent ++ records }
  | true, none => { s' with kept := s.kept ++ (s.recent ++ records), recent := [] }
  | true, some _ => { s' with discarded := s.discarded ++ (s.recent ++ records), recent := [] }

/-- The cursor moves past the batch and is saved. -/
def Relay.advance (s : Relay) (records : List SpanRecord) (next : ℕ) : Relay :=
  { s with
    phase := .idle, spool := s.spool.countUndecodable, cursor := next, saved := next
    taken := s.taken ++ records }

/-- A successful `Write`, the two halves of `forwardBatch`, or `Drain` loading the saved cursor. -/
def step (c : LineCodec) (s : Relay) : Action → Option Relay
  | .write records =>
    match s.spool.write c records with
    | (_, false) => none
    | (spool, true) => some (s.wrote spool (s.spool.rotates c records) records)
  | .read removeFails =>
    match s.phase with
    | .publishing _ _ => none
    | .idle =>
      match s.spool.read c s.cursor defaultBatchSize removeFails with
      | (none, spool) => some { s with spool := spool }
      | (some ([], _), spool) => some { s with spool := spool }
      | (some (r :: rs, next), spool) =>
        some { s with spool := spool, phase := .publishing (r :: rs) next }
  | .publish out =>
    match s.phase, out with
    | .idle, _ => none
    | .publishing records next, .ok =>
      some { s.advance records next with published := s.published ++ records }
    | .publishing _ _, .failed => some { s with phase := .idle }
    | .publishing records next, .queueFull =>
      some { s.advance records next with refused := s.refused ++ records }
  | .reload =>
    match s.phase with
    | .idle => some { s with cursor := s.saved }
    | .publishing _ _ => none

/-- A fresh spool and a forwarder with no saved cursor. -/
def start (maxBytes : ℤ) : Relay := { spool := newSpool maxBytes }

/-- No write rotates the current file away while the forwarder's cursor lies beyond its end. -/
def FreshRotation (c : LineCodec) (s : Relay) : Action → Prop
  | .write records =>
    ¬(s.spool.old = none ∧ s.spool.cur.length < s.cursor ∧ s.spool.rotates c records = true)
  | _ => True

instance (c : LineCodec) (s : Relay) : ∀ a, Decidable (FreshRotation c s a)
  | .write _ => inferInstanceAs (Decidable (¬(_ ∧ _ ∧ _)))
  | .read _ | .publish _ | .reload => inferInstanceAs (Decidable True)

/-! ### What the files and the cursor say -/

/-- The cursor stands between two lines of the old or the current file, with `unread` after it. -/
inductive Place (c : LineCodec) (s : Relay) (olds : List SpanRecord) (cursor : ℕ) :
    List SpanRecord → Prop where
  | inOld (a b : List SpanRecord) (ho : s.spool.old = some (c.file olds)) (hs : olds = a ++ b)
      (hc : cursor = (c.file a).length) : Place c s olds cursor (b ++ s.recent)
  | inCur (a b : List SpanRecord) (ho : s.spool.old = none) (hs : s.recent = a ++ b)
      (hc : cursor = (c.file a).length) : Place c s olds cursor b

/-- The cursor is left over from an old file that has been removed. -/
def LeftOver (s : Relay) (cursor : ℕ) : Prop :=
  s.spool.old = none ∧ s.spool.maxBytes ≤ cursor

/-- The forwarder's cursor stands at a place, or is left over and all recent records are unread. -/
def Stands (c : LineCodec) (s : Relay) (olds : List SpanRecord) (cursor : ℕ)
    (unread : List SpanRecord) : Prop :=
  Place c s olds cursor unread ∨ LeftOver s cursor ∧ unread = s.recent

/-- The files hold whole lines of `olds` and of the recent records; `seen` has been taken and `unread`
    is still after the cursor, also after the one a running publish will set. -/
structure Holds (c : LineCodec) (s : Relay) (olds seen unread : List SpanRecord) : Prop where
  cur : s.spool.cur = c.file s.recent
  size : s.spool.size = (c.file s.recent).length
  small : (c.file s.recent).length < s.spool.maxBytes
  old : ∀ o, s.spool.old = some o → o = c.file olds ∧ s.spool.maxBytes ≤ o.length
  olds_writable : c.Writable olds
  recent_writable : c.Writable s.recent
  taken : s.taken = seen.map c.canon
  split : s.kept ++ s.recent = seen ++ unread
  place : Stands c s olds s.cursor unread
  flight : ∀ records next, s.phase = .publishing records next →
    ∃ x y, unread = x ++ y ∧ x ≠ [] ∧ records = x.map c.canon ∧ Place c s olds next y
  saved : s.saved = s.cursor

theorem holds_start (c : LineCodec) (maxBytes : ℤ) : Holds c (start maxBytes) [] [] [] where
  cur := rfl
  size := rfl
  small := (newSpool maxBytes).maxBytes_pos
  old := nofun
  olds_writable := forall_mem_nil _
  recent_writable := forall_mem_nil _
  taken := rfl
  split := rfl
  place := .inl (.inCur [] [] rfl rfl rfl)
  flight := nofun
  saved := rfl

/-! ### Write -/

variable {s' : Relay} {cursor : ℕ}

section Write
variable {c : LineCodec} {s : Relay} {olds seen unread records : List SpanRecord}

/-- Records appended to the current file come after everything unread. -/
theorem Place.appended (h : Place c s olds cursor unread) (ho : s'.spool.old = s.spool.old)
    (hr : s'.recent = s.recent ++ records) :
    Place c s' olds cursor (unread ++ records) := by
  cases h with
  | inOld a b hold hs hc =>
    rw [append_assoc, ← hr]
    exact .inOld a b (ho.trans hold) hs hc
  | inCur a b hold hs hc =>
    exact .inCur a (unread ++ records) (ho.trans hold) (by rw [hr, hs, append_assoc]) hc

/-- Renaming the current file keeps a cursor into it where it is. -/
theorem Place.renamed (h : Place c s olds cursor unread) (hnone : s.spool.old = none)
    (ho : s'.spool.old = some (c.file (s.recent ++ records))) (hr : s'.recent = []) :
    Place c s' (s.recent ++ records) cursor (unread ++ records) := by
  cases h with
  | inOld a b hold => rw [hnone] at hold; simp at hold
  | inCur a b hold hs hc =>
    have := Place.inOld (c := c) (s := s') a (unread ++ records) ho
      (by rw [hs, append_assoc]) hc
    rwa [hr, append_nil] at this

/-- Emptying the current file takes the recent records from behind a cursor into the old one. -/
theorem Place.emptied {o : List UInt8} (h : Place c s olds cursor unread) (s' : Relay)
    (hsome : s.spool.old = some o) (ho : s'.spool.old = s.spool.old) (hr : s'.recent = []) :
    ∃ b, unread = b ++ s.recent ∧ Place c s' olds cursor b := by
  cases h with
  | inOld a b hold hs hc =>
    refine ⟨b, rfl, ?_⟩
    have := Place.inOld (c := c) (s := s') a b (ho.trans hold) hs hc
    rwa [hr, append_nil] at this
  | inCur a b hold => rw [hsome] at hold; simp at hold

theorem rotates_eq (h : Holds c s olds seen unread) (hw : c.Writable records) :
    s.spool.rotates c records = true ↔
      s.spool.maxBytes ≤ (c.file (s.recent ++ records)).length := by
  rw [rotates_iff _ hw, h.size, file_append, length_append]

theorem holds_written (h : Holds c s olds seen unread) (hw : c.Writable records)
    (hrot : s.spool.rotates c records = false) {spool : Spool} (hm : spool.maxBytes = s.spool.maxBytes)
    (hcur : spool.cur = s.spool.cur ++ c.file records) (hold : spool.old = s.spool.old)
    (hsize : spool.size = s.spool.size + (c.file records).length) :
    Holds c (s.wrote spool false records) olds seen (unread ++ records) where
  cur := by simp [Relay.wrote, hcur, h.cur]
  size := by simp [Relay.wrote, hsize, h.size]
  small := by
    have := (rotates_eq h hw).not.mp (by simp [hrot])
    simpa only [Relay.wrote, hm, Nat.not_le] using this
  old := fun o ho => by
    simp only [Relay.wrote, hold, hm] at ho ⊢
    exact h.old o ho
  olds_writable := h.olds_writable
  recent_writable := h.recent_writable.append hw
  taken := h.taken
  split := by simp [Relay.wrote, ← append_assoc, h.split]
  place := by
    rcases h.place with hp | ⟨⟨h1, h2⟩, hu⟩
    · exact .inl (hp.appended hold rfl)
    · refine .inr ⟨⟨hold.trans h1, ?_⟩, by rw [hu]; rfl⟩
      simpa only [Relay.wrote, hm] using h2
  flight := fun rs next hph => by
    obtain ⟨x, y, hu, hx, hrs, hp⟩ := h.flight rs next hph
    exact ⟨x, y ++ records, by rw [hu, append_assoc], hx, hrs, hp.appended hold rfl⟩
  saved := h.saved

theorem holds_renamed (h : Holds c s olds seen unread) (hw : c.Writable records)
    (hrot : s.spool.rotates c records = true) (hnone : s.spool.old = none)
    (hfresh : ¬s.spool.cur.length < s.cursor) {spool : Spool}
    (hm : spool.maxBytes = s.spool.maxBytes) (hcur : spool.cur = []) (hsize : spool.size = 0)
    (hold : spool.old = some (s.spool.cur ++ c.file records)) :
    Holds c (s.wrote spool true records) (s.recent ++ records) seen (unread ++ records) := by
  have hbig := (rotates_eq h hw).mp hrot
  have hfile : spool.old = some (c.file (s.recent ++ records)) := by
    rw [hold, h.cur, file_append]
  have hwrote : s.wrote spool true records =
      { s with
        spool := spool, written := s.written ++ records, kept := s.kept ++ (s.recent ++ records)
        recent := [] } := by
    simp [Relay.wrote, hnone]
  rw [hwrote]
  refine ⟨hcur, hsize, ?_, fun o ho => ?_, h.recent_writable.append hw,
    forall_mem_nil _, h.taken, ?_, ?_,
    fun rs next hph => ?_, h.saved⟩
  · simpa only [hm, file_nil, length_nil] using s.spool.maxBytes_pos
  · obtain rfl : c.file (s.recent ++ records) = o := Option.some.inj (hfile.symm.trans ho)
    exact ⟨rfl, by rw [hm]; exact hbig⟩
  · simp [← append_assoc, h.split]
  · rcases h.place with hp | ⟨⟨-, h2⟩, -⟩
    · exact .inl (hp.renamed hnone hfile rfl)
    · -- a left-over cursor is beyond the current file's end
      have := h.small
      rw [h.cur] at hfresh
      omega
  · obtain ⟨x, y, hu, hx, hrs, hp⟩ := h.flight rs next hph
    exact ⟨x, y ++ records, by rw [hu, append_assoc], hx, hrs, hp.renamed hnone hfile rfl⟩

theorem holds_emptied (h : Holds c s olds seen unread) {o : List UInt8}
    (hsome : s.spool.old = some o) {spool : Spool} (hm : spool.maxBytes = s.spool.maxBytes)
    (hcur : spool.cur = []) (hsize : spool.size = 0) (hold : spool.old = s.spool.old) :
    ∃ unread', Holds c (s.wrote spool true records) olds seen unread' := by
  have hwrote : s.wrote spool true records =
      { s with
        spool := spool, written := s.written ++ records
        discarded := s.discarded ++ (s.recent ++ records), recent := [] } := by
    simp [Relay.wrote, hsome]
  have hplace : Place c s olds s.cursor unread := by
    rcases h.place with hp | ⟨⟨h1, -⟩, -⟩
    · exact hp
    · rw [hsome] at h1; simp at h1
  rw [hwrote]
  obtain ⟨b, hb, hp⟩ := hplace.emptied { s with
    spool := spool, written := s.written ++ records
    discarded := s.discarded ++ (s.recent ++ records), recent := [] } hsome hold rfl
  refine ⟨b, hcur, hsize, ?_, fun o' ho => ?_, h.olds_writable,
    forall_mem_nil _, h.taken, ?_, .inl hp,
    fun rs next hph => ?_, h.saved⟩
  · simpa only [hm, file_nil, length_nil] using s.spool.maxBytes_pos
  · simp only [hold, hm] at ho ⊢
    exact h.old o' ho
  · have := h.split
    rw [hb, ← append_assoc] at this
    rw [append_nil]
    exact append_cancel_right this
  · obtain ⟨x, y, hu, hx, hrs, hpn⟩ := h.flight rs next hph
    obtain ⟨b', hb', hp'⟩ := hpn.emptied { s with
      spool := spool, written := s.written ++ records
      discarded := s.discarded ++ (s.recent ++ records), recent := [] } hsome hold rfl
    refine ⟨x, b', ?_, hx, hrs, hp'⟩
    rw [hu, hb', ← append_assoc] at hb
    exact (append_cancel_right hb).symm

theorem holds_write (h : Holds c s olds seen unread) (hfresh : FreshRotation c s (.write records))
    (hs : step c s (.write records) = some s') :
    ∃ olds' unread', Holds c s' olds' seen unread' := by
  have hw : c.Writable records := by
    refine writable_of_write (s := s.spool) ?_
    rcases hp : s.spool.write c records with ⟨spool, ok⟩
    cases ok with
    | false => simp [step, hp] at hs
    | true => rfl
  simp only [step, write_eq _ hw, Option.some.injEq] at hs
  subst hs
  cases hrot : s.spool.rotates c records with
  | false =>
    exact ⟨olds, _, holds_written h hw hrot rfl rfl rfl rfl⟩
  | true =>
    by_cases hnone : s.spool.old = none
    · have hf : ¬s.spool.cur.length < s.cursor := fun hlt => hfresh ⟨hnone, hlt, hrot⟩
      refine ⟨_, _, holds_renamed h hw hrot hnone hf ?_ ?_ ?_ ?_⟩ <;>
        simp [Spool.rotate, Spool.appended, hnone]
    · obtain ⟨o, hsome⟩ := Option.ne_none_iff_exists'.mp hnone
      refine ⟨olds, holds_emptied h hsome ?_ ?_ ?_ ?_⟩ <;>
        simp [Spool.rotate, Spool.appended, hsome]

end Write

/-! ### Read and publish -/

section Read
variable {c : LineCodec} {s : Relay} {olds seen unread : List SpanRecord}

/-- A read finds `x` of the unread records, leaves the recent file alone and may remove the old one;
    the cursor it returns stands after `x`, the one it was given is still good or is left over. -/
structure Found (c : LineCodec) (s : Relay) (olds unread : List SpanRecord) (spool : Spool)
    (next : ℕ) (x y : List SpanRecord) : Prop where
  cur : spool.cur = s.spool.cur
  size : spool.size = s.spool.size
  maxBytes : spool.maxBytes = s.spool.maxBytes
  old : spool.old = s.spool.old ∨ spool.old = none
  split : unread = x ++ y
  next : Place c { s with spool := spool } olds next y
  place : Stands c { s with spool := spool } olds s.cursor unread

/-- Reading the current file from a line boundary, or from its start with a cursor past its end. -/
theorem readCurrent_eq {a b : List SpanRecord} (sp : Spool) (cursor limit : ℕ)
    (hcur : sp.cur = c.file (a ++ b)) (hb : c.Writable b)
    (hc : cursor = (c.file a).length ∨ sp.cur.length < cursor ∧ a = []) :
    sp.readCurrent c cursor limit =
      (((b.take limit).map c.canon, (c.file (a ++ b.take limit)).length), sp) := by
  have hpos : (if 0 < cursor ∧ sp.cur.length < cursor then 0 else cursor) = (c.file a).length := by
    rcases hc with rfl | ⟨hlt, rfl⟩
    · rw [if_neg]
      rw [hcur, file_append, length_append]
      omega
    · rw [if_pos ⟨by omega, hlt⟩]
      rfl
  simp only [Spool.readCurrent, hpos]
  have hrf := readFile_file (a := a) hb limit
  rw [← hcur] at hrf
  rw [hrf, file_append, length_append]
  rfl

theorem place_spool (h : Place c s olds cursor unread) (ho : s'.spool.old = s.spool.old)
    (hr : s'.recent = s.recent) :
    Place c s' olds cursor unread := by
  have happ : Place c s' olds cursor (unread ++ []) :=
    h.appended ho (by rw [hr, append_nil])
  rwa [append_nil] at happ

theorem Stands.spool (h : Stands c s olds cursor unread) (ho : s'.spool.old = s.spool.old)
    (hm : s'.spool.maxBytes = s.spool.maxBytes) (hr : s'.recent = s.recent) :
    Stands c s' olds cursor unread := by
  rcases h with hp | ⟨⟨h1, h2⟩, hu⟩
  · exact .inl (place_spool hp ho hr)
  · exact .inr ⟨⟨ho.trans h1, hm ▸ h2⟩, hu.trans hr.symm⟩

/-- The read of a forwarder whose old file has unread records. -/
theorem read_old {a b : List SpanRecord} (h : Holds c s olds seen unread)
    (ho : s.spool.old = some (c.file olds)) (hs : olds = a ++ b) (hb : b ≠ [])
    (hc : s.cursor = (c.file a).length) (hu : unread = b ++ s.recent) (removeFails : Bool) :
    ∃ spool next x y, s.spool.read c s.cursor defaultBatchSize removeFails =
        (some (x.map c.canon, next), spool) ∧ x ≠ [] ∧ Found c s olds unread spool next x y := by
  have hwb : c.Writable b := fun r hr => h.olds_writable r (by rw [hs]; simp [hr])
  have hx : b.take defaultBatchSize ≠ [] := by simp [hb, defaultBatchSize]
  have hne : (b.take defaultBatchSize).map c.canon ≠ [] := by simpa using hx
  refine ⟨{ s.spool with readUndecodable := 0 }, (c.file (a ++ b.take defaultBatchSize)).length,
    b.take defaultBatchSize, b.drop defaultBatchSize ++ s.recent, ?_, hx, rfl, rfl, rfl, .inl rfl,
    ?_, ?_, ?_⟩
  · have hrf := readFile_file (c := c) (a := a) hwb defaultBatchSize
    rw [← hs, ← hc] at hrf
    rw [Spool.read_of_old ho (by rw [hrf]; exact hne), hrf, hc, file_append, length_append]
  · rw [hu, ← append_assoc, take_append_drop]
  · exact .inOld _ (b.drop defaultBatchSize) ho (by rw [append_assoc, take_append_drop, hs])
      rfl
  · rw [hu]
    exact .inl (.inOld a b ho hs hc)

/-- The read of a forwarder whose old file is finished: it is removed, and the cursor is left over
    from it. -/
theorem read_removes (h : Holds c s olds seen unread) (ho : s.spool.old = some (c.file olds))
    (hc : s.cursor = (c.file olds).length) (hu : unread = s.recent) :
    ∃ spool next x y, s.spool.read c s.cursor defaultBatchSize false =
        (some (x.map c.canon, next), spool) ∧ (x = [] → unread = []) ∧
        Found c s olds unread spool next x y := by
  have hbig := (h.old _ ho).2
  refine ⟨Spool.countUndecodable { s.spool with old := none, readUndecodable := 0 },
    (c.file (s.recent.take defaultBatchSize)).length, s.recent.take defaultBatchSize,
    s.recent.drop defaultBatchSize, ?_, fun hx => ?_, rfl, rfl, rfl, .inr rfl, ?_, ?_, ?_⟩
  · have hcur := readCurrent_eq (c := c) (a := []) (b := s.recent)
      (Spool.countUndecodable { s.spool with old := none, readUndecodable := 0 }) 0
      defaultBatchSize h.cur h.recent_writable (.inl rfl)
    rw [Spool.read_of_finished ho (by rw [hc]; exact readFile_end _), hcur]
    rfl
  · rw [hu]
    simpa [defaultBatchSize] using hx
  · rw [hu, take_append_drop]
  · exact .inCur _ _ rfl (take_append_drop ..).symm rfl
  · exact .inr ⟨⟨rfl, by rw [hc]; exact hbig⟩, hu⟩

/-- The read of a forwarder without an old file. -/
theorem read_current (h : Holds c s olds seen unread) (ho : s.spool.old = none)
    (removeFails : Bool) :
    ∃ spool next x y, s.spool.read c s.cursor defaultBatchSize removeFails =
        (some (x.map c.canon, next), spool) ∧ (x = [] → unread = []) ∧
        Found c s olds unread spool next x y := by
  have hpos : ∃ a, s.recent = a ++ unread ∧
      (s.cursor = (c.file a).length ∨ s.spool.cur.length < s.cursor ∧ a = []) := by
    rcases h.place with hp | ⟨⟨-, hle⟩, hu⟩
    · cases hp with
      | inOld a b hold => rw [ho] at hold; simp at hold
      | inCur a b _ hs hc => exact ⟨a, hs, .inl hc⟩
    · have := h.small
      exact ⟨[], hu.symm, .inr ⟨by rw [h.cur]; omega, rfl⟩⟩
  obtain ⟨a, hs, hc⟩ := hpos
  have hwu : c.Writable unread := fun r hr => h.recent_writable r (by rw [hs]; simp [hr])
  refine ⟨{ s.spool with readUndecodable := 0 },
    (c.file (a ++ unread.take defaultBatchSize)).length, unread.take defaultBatchSize,
    unread.drop defaultBatchSize, ?_, fun hx => ?_, rfl, rfl, rfl, .inl rfl, ?_, ?_, ?_⟩
  · have hcur := readCurrent_eq (c := c) (a := a) (b := unread)
      { s.spool with readUndecodable := 0 } s.cursor defaultBatchSize (by rw [← hs]; exact h.cur)
      hwu hc
    rw [Spool.read_of_no_old ho, hcur]
    rfl
  · simpa [defaultBatchSize] using hx
  · rw [take_append_drop]
  · exact .inCur _ _ ho (by rw [append_assoc, take_append_drop, hs]) rfl
  · exact h.place.spool rfl rfl rfl

theorem step_read {removeFails : Bool} {records : List SpanRecord} {next : ℕ} {spool : Spool}
    (hidle : s.phase = .idle)
    (hr : s.spool.read c s.cursor defaultBatchSize removeFails = (some (records, next), spool)) :
    step c s (.read removeFails) = some (if records = [] then { s with spool := spool }
      else { s with spool := spool, phase := .publishing records next }) := by
  cases records <;> simp [step, hidle, hr]

/-- After a read that found `x`, everything said about the relay still holds. -/
theorem holds_found {spool : Spool} {next : ℕ} {x y : List SpanRecord}
    (h : Holds c s olds seen unread) (hidle : s.phase = .idle)
    (hf : Found c s olds unread spool next x y) :
    Holds c (if x.map c.canon = [] then { s with spool := spool }
      else { s with spool := spool, phase := .publishing (x.map c.canon) next })
      olds seen unread := by
  have hold : ∀ o, spool.old = some o → o = c.file olds ∧ spool.maxBytes ≤ o.length := by
    intro o ho
    rw [hf.maxBytes]
    rcases hf.old with he | he
    · exact h.old o (he ▸ ho)
    · rw [he] at ho; simp at ho
  by_cases hx : x.map c.canon = []
  · rw [if_pos hx]
    exact ⟨hf.cur.trans h.cur, hf.size.trans h.size, by simpa only [hf.maxBytes] using h.small,
      hold, h.olds_writable, h.recent_writable, h.taken, h.split, hf.place,
      fun rs n hph => by simp [hidle] at hph, h.saved⟩
  · rw [if_neg hx]
    refine ⟨hf.cur.trans h.cur, hf.size.trans h.size, by simpa only [hf.maxBytes] using h.small,
      hold, h.olds_writable, h.recent_writable, h.taken, h.split, ?_, fun rs n hph => ?_, h.saved⟩
    · exact hf.place.spool rfl rfl rfl
    · obtain ⟨rfl, rfl⟩ : x.map c.canon = rs ∧ next = n := by simpa using hph
      exact ⟨x, y, hf.split, by rintro rfl; simp at hx, rfl, place_spool hf.next rfl rfl⟩

/-- A read whose remove of the finished old file fails changes nothing but a counter. -/
theorem holds_counter {n : ℕ} (h : Holds c s olds seen unread) :
    Holds c { s with spool := { s.spool with readUndecodable := n } } olds seen unread :=
  ⟨h.cur, h.size, h.small, h.old, h.olds_writable, h.recent_writable, h.taken, h.split,
    h.place.spool rfl rfl rfl, fun rs next hph => by
      obtain ⟨x, y, hu, hx, hrs, hp⟩ := h.flight rs next hph
      exact ⟨x, y, hu, hx, hrs, place_spool hp rfl rfl⟩, h.saved⟩

/-- A read keeps what holds, and one that runs to its end without finding anything has nothing left
    to find. -/
theorem holds_read {removeFails : Bool} (h : Holds c s olds seen unread)
    (hs : step c s (.read removeFails) = some s') :
    Holds c s' olds seen unread ∧ (removeFails = false → s'.phase = .idle → unread = []) := by
  have hidle : s.phase = .idle := by
    cases hp : s.phase with
    | idle => rfl
    | publishing rs n => simp [step, hp] at hs
  have finish : ∀ {spool next x y}, s.spool.read c s.cursor defaultBatchSize removeFails =
      (some (x.map c.canon, next), spool) → (x = [] → unread = []) →
      Found c s olds unread spool next x y →
      Holds c s' olds seen unread ∧ (removeFails = false → s'.phase = .idle → unread = []) := by
    intro spool next x y hr hx hf
    obtain rfl := Option.some.inj ((step_read hidle hr).symm.trans hs)
    refine ⟨holds_found h hidle hf, fun _ hph => hx ?_⟩
    by_contra hne
    rw [if_neg (by simpa using hne)] at hph
    simp at hph
  by_cases ho : s.spool.old = none
  · obtain ⟨spool, next, x, y, hr, hx, hf⟩ := read_current h ho removeFails
    exact finish hr hx hf
  obtain ⟨o, ho⟩ := Option.ne_none_iff_exists'.mp ho
  have hfile := (h.old o ho).1
  subst hfile
  rcases h.place with hp | ⟨⟨h1, -⟩, -⟩
  · cases hp with
    | inCur a b hold => rw [ho] at hold; simp at hold
    | inOld a b _ hsplit hc =>
      by_cases hb : b = []
      · subst hb
        rw [append_nil] at hsplit
        cases removeFails with
        | false =>
          obtain ⟨spool, next, x, y, hr, hx, hf⟩ :=
            read_removes h ho (by rw [hsplit]; exact hc) (nil_append _)
          exact finish hr hx hf
        | true =>
          have hr : s.spool.read c s.cursor defaultBatchSize true =
              (none, { s.spool with readUndecodable := 0 }) := by
            rw [Spool.read_of_finished ho (by rw [hc, hsplit]; exact readFile_end _)]
            rfl
          have hs' : s' = { s with spool := { s.spool with readUndecodable := 0 } } := by
            simpa [step, hidle, hr, eq_comm] using hs
          subst hs'
          exact ⟨holds_counter h, by simp⟩
      · obtain ⟨spool, next, x, y, hr, hx, hf⟩ := read_old h ho hsplit hb hc rfl removeFails
        exact finish hr (fun hn => absurd hn hx) hf
  · rw [ho] at h1; simp at h1

/-- Moving the cursor past what was read. -/
theorem holds_advance {records : List SpanRecord} {next : ℕ} (h : Holds c s olds seen unread)
    (hph : s.phase = .publishing records next) :
    ∃ x y, unread = x ++ y ∧ x ≠ [] ∧ records = x.map c.canon ∧
      ∀ published refused, Holds c
        { s.advance records next with published := published, refused := refused }
        olds (seen ++ x) y := by
  obtain ⟨x, y, hu, hx, hrs, hp⟩ := h.flight records next hph
  refine ⟨x, y, hu, hx, hrs, fun published refused => ?_⟩
  refine ⟨h.cur, h.size, h.small, h.old, h.olds_writable, h.recent_writable, ?_, ?_,
    .inl (place_spool hp rfl rfl), nofun, rfl⟩
  · simp [Relay.advance, h.taken, hrs]
  · simp [Relay.advance, h.split, hu]

theorem holds_step {a : Action} (h : Holds c s olds seen unread) (hfresh : FreshRotation c s a)
    (hs : step c s a = some s') :
    ∃ olds' seen' unread', Holds c s' olds' seen' unread' := by
  cases a with
  | write records =>
    obtain ⟨olds', unread', h'⟩ := holds_write h hfresh hs
    exact ⟨olds', seen, unread', h'⟩
  | read removeFails => exact ⟨olds, seen, unread, (holds_read h hs).1⟩
  | publish out =>
    cases hph : s.phase with
    | idle => simp [step, hph] at hs
    | publishing records next =>
      obtain ⟨x, y, -, -, -, h'⟩ := holds_advance h hph
      cases out <;> simp only [step, hph, Option.some.injEq] at hs <;> subst hs
      · exact ⟨olds, seen ++ x, y, h' _ _⟩
      · exact ⟨olds, seen, unread, h.cur, h.size, h.small, h.old, h.olds_writable,
          h.recent_writable, h.taken, h.split, h.place.spool rfl rfl rfl,
          nofun, h.saved⟩
      · exact ⟨olds, seen ++ x, y, h' _ _⟩
  | reload =>
    cases hph : s.phase with
    | publishing records next => simp [step, hph] at hs
    | idle =>
      simp only [step, hph, Option.some.injEq] at hs
      subst hs
      refine ⟨olds, seen, unread, h.cur, h.size, h.small, h.old, h.olds_writable,
        h.recent_writable, h.taken, h.split, ?_, fun rs next hp => ?_, rfl⟩
      · rw [h.saved]
        exact h.place.spool rfl rfl rfl
      · simp at hp

end Read

/-! ### Delivery -/

/-- Everything written and not discarded has been taken, in order and once, up to an unread rest; and
    a read that finds nothing to publish leaves no rest. -/
def Delivered (c : LineCodec) (s : Relay) : Prop :=
  ∃ unread : List SpanRecord,
    s.taken ++ unread.map c.canon = (s.kept ++ s.recent).map c.canon ∧
    ∀ s', step c s (.read false) = some s' → s'.phase = .idle → unread = []

variable {c : LineCodec} {s : Relay}

theorem Holds.delivered {olds seen unread : List SpanRecord} (h : Holds c s olds seen unread) :
    Delivered c s := by
  refine ⟨unread, ?_, fun s' hs hph => (holds_read h hs).2 rfl hph⟩
  rw [h.split, map_append, h.taken]

/-- `forwardBatch` with a publish that goes through, `n` times. -/
def forwards (n : ℕ) : List Action := (List.replicate n [Action.read false, .publish .ok]).flatten

/-- While something is unread, `forwardBatch` publishes some of it. -/
theorem forward_one {olds seen unread : List SpanRecord} (h : Holds c s olds seen unread)
    (hidle : s.phase = .idle) (hu : unread ≠ []) :
    ∃ s' seen' unread', run (step c) s [.read false, .publish .ok] = some s' ∧
      Holds c s' olds seen' unread' ∧ unread'.length < unread.length ∧ s'.phase = .idle ∧
      s'.kept = s.kept ∧ s'.recent = s.recent := by
  obtain ⟨m, hm⟩ : ∃ m, step c s (.read false) = some m := by
    rcases hr : s.spool.read c s.cursor defaultBatchSize false with ⟨_ | ⟨_ | ⟨r, rs⟩, next⟩, spool⟩ <;>
      simp [step, hidle, hr]
  have hkeep : m.kept = s.kept ∧ m.recent = s.recent := by
    rcases hr : s.spool.read c s.cursor defaultBatchSize false with ⟨_ | ⟨_ | ⟨r, rs⟩, next⟩, spool⟩ <;>
      simp only [step, hidle, hr, Option.some.injEq] at hm <;> subst hm <;> exact ⟨rfl, rfl⟩
  obtain ⟨hM, hnone⟩ := holds_read h hm
  cases hph : m.phase with
  | idle => exact absurd (hnone rfl hph) hu
  | publishing records next =>
    obtain ⟨x, y, hxy, hx, -, hadv⟩ := holds_advance hM hph
    refine ⟨_, seen ++ x, y, ?_, hadv (m.published ++ records) m.refused, ?_, rfl, hkeep.1, hkeep.2⟩
    · refine run_cons.mpr ⟨m, hm, run_cons.mpr ⟨_, ?_, rfl⟩⟩
      simp only [step, hph]
      rfl
    · have := length_pos_iff.mpr hx
      rw [hxy, length_append]
      omega

/-- As many batches as there are unread records are enough to publish them all. -/
theorem forward_all : ∀ (k : ℕ) {s : Relay} {olds seen unread : List SpanRecord},
    Holds c s olds seen unread → s.phase = .idle → unread.length ≤ k →
    ∃ n s', run (step c) s (forwards n) = some s' ∧
      s'.taken = (s.kept ++ s.recent).map c.canon
  | k, s, olds, seen, [], h, _, _ => by
    refine ⟨0, s, rfl, ?_⟩
    rw [h.split, append_nil, h.taken]
  | 0, s, olds, seen, x :: xs, _, _, hk => by simp at hk
  | k + 1, s, olds, seen, x :: xs, h, hidle, hk => by
    obtain ⟨m, seen', unread', hm, hM, hlt, hph, hkept, hrec⟩ := forward_one h hidle (by simp)
    obtain ⟨n, s', hrun, htaken⟩ := forward_all k hM hph (by omega)
    refine ⟨n + 1, s', ?_, by rw [htaken, hkept, hrec]⟩
    rw [forwards, replicate_succ, flatten_cons]
    exact run_append.mpr ⟨m, hm, hrun⟩

/-- The history lists fit together: what is kept is in write order, what was written is kept or
    discarded, and the cursor moved past published or refused records only. -/
structure Recorded (s : Relay) : Prop where
  order : (s.kept ++ s.recent).Sublist s.written
  total : s.written.Perm (s.kept ++ s.recent ++ s.discarded)
  fate : s.refused = [] → s.published = s.taken

theorem recorded_wrote (h : Recorded s) (spool : Spool) (rotated : Bool)
    (records : List SpanRecord) : Recorded (s.wrote spool rotated records) := by
  have hord := h.order.append (List.Sublist.refl records)
  have htot := h.total.append_right records
  cases rotated with
  | false =>
    refine ⟨by simpa only [Relay.wrote, append_assoc] using hord, ?_, h.fate⟩
    refine htot.trans ?_
    simp only [Relay.wrote, append_assoc]
    exact (List.Perm.append_left _ (List.Perm.append_left _ perm_append_comm))
  | true =>
    cases hold : s.spool.old with
    | none =>
      simp only [Relay.wrote, hold]
      refine ⟨by simpa only [append_assoc, append_nil] using hord, ?_, h.fate⟩
      refine htot.trans ?_
      simp only [append_assoc, nil_append]
      exact (List.Perm.append_left _ (List.Perm.append_left _ perm_append_comm))
    | some o =>
      simp only [Relay.wrote, hold]
      refine ⟨?_, ?_, h.fate⟩
      · rw [append_nil]
        exact ((sublist_append_left _ _).trans h.order).trans (sublist_append_left _ _)
      · refine htot.trans ?_
        simp only [append_assoc, nil_append]
        refine List.Perm.append_left _ ?_
        rw [← append_assoc, ← append_assoc]
        exact perm_append_comm.append_right records

theorem recorded_step {a : Action} (h : Recorded s) (hs : step c s a = some s') : Recorded s' := by
  cases a with
  | write records =>
    rcases hp : s.spool.write c records with ⟨spool, _ | _⟩ <;>
      simp only [step, hp, reduceCtorEq, Option.some.injEq] at hs
    subst hs
    exact recorded_wrote h ..
  | read removeFails =>
    cases hph : s.phase with
    | publishing rs n => simp [step, hph] at hs
    | idle =>
      rcases hr : s.spool.read c s.cursor defaultBatchSize removeFails with
        ⟨_ | ⟨_ | ⟨r, rs⟩, next⟩, spool⟩ <;>
        simp only [step, hph, hr, Option.some.injEq] at hs <;> subst hs <;>
        exact ⟨h.order, h.total, h.fate⟩
  | publish out =>
    cases hph : s.phase with
    | idle => simp [step, hph] at hs
    | publishing records next =>
      cases out <;> simp only [step, hph, Option.some.injEq] at hs <;> subst hs
      · exact ⟨h.order, h.total, fun hr => by
          simp only [Relay.advance, h.fate hr]⟩
      · exact ⟨h.order, h.total, h.fate⟩
      · refine ⟨h.order, h.total, fun hr => ?_⟩
        obtain ⟨h1, h2⟩ := append_eq_nil_iff.mp hr
        simp [Relay.advance, h.fate h1, h2]
  | reload =>
    cases hph : s.phase with
    | publishing rs n => simp [step, hph] at hs
    | idle =>
      simp only [step, hph, Option.some.injEq] at hs
      subst hs
      exact ⟨h.order, h.total, h.fate⟩

def spanA : SpanRecord := { projectID := 1, traceID := "t", spanID := "a" }

def spanB : SpanRecord := { projectID := 1, traceID := "t", spanID := "b" }

/-- A codec that writes one byte per record: `a` or `b`. -/
def pairCodec : LineCodec where
  marshal r := some (if r = spanA then [97] else [98])
  unmarshal l := if l = [97, 10] then some spanA else if l = [98, 10] then some spanB else none
  canon r := if r = spanA then spanA else spanB
  no_newline := by
    intro r d h
    obtain rfl := Option.some.inj h
    split <;> decide
  round_trip := by
    intro r d h
    obtain rfl := Option.some.inj h
    split <;> decide

/-- The first batch fills the file and is forwarded; the next read removes the old file and finds
    nothing, so the cursor keeps its offset. The second batch fills the file again. -/
def lostRun : List Action :=
  [.write [spanA], .read false, .publish .ok, .read false, .write [spanB], .read false]

/-- A failed publish, a rotation with unread records and a cursor left over from the old file. -/
def retriedRun : List Action :=
  [.write [spanA], .read false, .publish .failed, .write [spanB], .read false, .write [spanA],
    .publish .ok, .read false, .publish .ok]

end Spanbarn.Forward
