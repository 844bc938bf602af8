import Mathlib.Algebra.Order.Ring.Int
import Spanbarn.Model.Time
import Spanbarn.Schemes.Run

/-! Time shards: one file per period of a family.

    The writer cuts time into periods of whole days or weeks, aligned to a fixed origin, and writes each
    row into the file of the period it runs in. The file is named after the start of the period; the
    `shards` table records its end, once, when the file is created. Retention retires a shard whose
    recorded end has passed the cutoff.

        settings of 8 days:   │ D │ D+1 │ …            the file D is recorded with the end D+1
        settings of 9 days:   │ D       │ D+2 …        and then takes rows up to D+2

    A restart with longer periods may pick a file that was recorded under shorter ones. As long as no
    insert does, a retired shard holds expired rows only. -/

namespace Spanbarn.Shards
open List Spanbarn.Model Spanbarn.Schemes

/-! ### Periods -/

/-- The families that can be time-sharded. -/
inductive Family where
  | logs | metrics | prompts
  deriving DecidableEq, Repr

/-- The period of the family counts in ISO weeks. -/
def Family.weekly : Family → Bool
  | .prompts => true
  | _ => false

/-- The length of one base unit. -/
def Family.unit (f : Family) : ℤ := if f.weekly then 7 * dayNanos else dayNanos

/-- The Unix epoch, or the first Monday after it. -/
def Family.origin (f : Family) : ℤ := if f.weekly then 4 * dayNanos else 0

def maxShardFiles : ℤ := 9

/-- `shardSpec`: periods of `n` units. -/
structure ShardSpec where
  family : Family
  n : ℤ
  pos : 0 < n

def shardUnits (f : Family) (retention : ℤ) : ℤ := max 1 ((retention + f.unit - 1).tdiv f.unit)

/-- The shortest period at which retention and the current period fit in `maxShardFiles` files. -/
def newShardSpec (f : Family) (retention : ℤ) : ShardSpec where
  family := f
  n := (shardUnits f retention + maxShardFiles - 2).tdiv (maxShardFiles - 1)
  pos := by
    have hunits : 1 ≤ shardUnits f retention := le_max_left _ _
    rw [Int.tdiv_eq_ediv_of_nonneg (by simp only [maxShardFiles]; omega)]
    simp only [maxShardFiles]
    omega

def ShardSpec.length (s : ShardSpec) : ℤ := s.n * s.family.unit

/-- The start of the period that holds `t`. -/
def ShardSpec.start (s : ShardSpec) (t : ℤ) : ℤ :=
  s.family.origin + (t - s.family.origin).tdiv s.length * s.length

/-- The name of a shard file: the family and the date, or the ISO week, of the start of its period, kept
    as the number of that day or week. -/
structure FileName where
  family : Family
  number : ℤ
  deriving DecidableEq, Repr

def file (f : Family) (start : ℤ) : FileName := ⟨f, (start - f.origin) / f.unit⟩

/-- The period start a name holds. -/
def parseFile (name : FileName) : ℤ := name.family.origin + name.number * name.family.unit

/-- A whole number of units from the origin. -/
def OnGrid (f : Family) (t : ℤ) : Prop := parseFile (file f t) = t

variable {f : Family}

theorem onGrid_iff {t : ℤ} : OnGrid f t ↔ f.unit ∣ t - f.origin := by
  have hdiv := Int.mul_ediv_add_emod (t - f.origin) f.unit
  rw [OnGrid, parseFile, file, Int.dvd_iff_emod_eq_zero]
  dsimp only
  rw [mul_comm]
  omega

/-- Periods of every length start on the grid of the family. -/
theorem ShardSpec.start_onGrid (s : ShardSpec) (t : ℤ) : OnGrid s.family (s.start t) := by
  rw [onGrid_iff, start, add_sub_cancel_left, length, ← mul_assoc]
  exact Dvd.intro_left _ rfl

/-- A name stands for one start. -/
theorem file_inj {g : Family} {a b : ℤ} (ha : OnGrid f a) (hb : OnGrid g b)
    (h : file f a = file g b) : f = g ∧ a = b :=
  ⟨congrArg FileName.family h, by rw [← ha, h]; exact hb⟩

/-! ### The writer -/

inductive ShardState where
  | active
  | retiring (since : ℤ)
  deriving DecidableEq, Repr

/-- A row of the `shards` table. -/
structure ShardRow where
  family : Family
  file : FileName
  start : ℤ
  stop : ℤ
  state : ShardState := .active
  deriving DecidableEq, Repr

/-- A file on disk: of its rows only when each was ingested. -/
structure File where
  name : FileName
  rows : List ℤ := []
  deriving DecidableEq, Repr

/-- What `ExpireShards` found in a shard it marked retiring. -/
structure Retired where
  shard : ShardRow
  cutoff : ℤ
  rows : List ℤ
  deriving DecidableEq, Repr

structure System where
  clock : ℤ := 0
  specs : Family → Option ShardSpec := fun _ => none
  disk : List File := []
  shards : List ShardRow := []
  handles : List (Family × ℤ) := []
  retired : List Retired := []

/-- A family with a zero window keeps writing to main. -/
def specsOf (retention : Family → ℤ) (f : Family) : Option ShardSpec :=
  if 0 < retention f then some (newShardSpec f (retention f)) else none

def shardLead : ℤ := hourNanos

def endedCloseDelay : ℤ := 10 * minuteNanos

def shardDeleteDelay : ℤ := 5 * minuteNanos

/-- `INSERT OR IGNORE` under the primary key, family and start. -/
def System.record (s : System) (spec : ShardSpec) (start : ℤ) : System :=
  if s.shards.any fun r => decide (r.family = spec.family ∧ r.start = start) then s
  else { s with shards := s.shards ++
    [⟨spec.family, file spec.family start, start, start + spec.length, .active⟩] }

def System.create (s : System) (name : FileName) : System :=
  if s.disk.any fun f => decide (f.name = name) then s else { s with disk := s.disk ++ [⟨name, []⟩] }

/-- `shard`: open the file of a period, creating and recording it if needed. A stop between the two, or
    a failed record, leaves a file without a row. -/
def System.shard (s : System) (spec : ShardSpec) (start : ℤ) (stops : Bool) : System :=
  if (spec.family, start) ∈ s.handles then s
  else if stops then s.create (file spec.family start)
  else { (s.create (file spec.family start)).record spec start with
    handles := (spec.family, start) :: s.handles }

/-- Rows go into a file. -/
def System.write (s : System) (name : FileName) (stamps : List ℤ) : System :=
  { s with disk := s.disk.map fun f => if f.name = name then { f with rows := f.rows ++ stamps } else f }

/-- The rows of a file. -/
def System.rowsOf (s : System) (name : FileName) : List ℤ :=
  (s.disk.filter fun f => decide (f.name = name)).flatMap File.rows

/-- Inserts may still reach the shard. -/
def writable (spec : ShardSpec) (row : ShardRow) (now : ℤ) : Bool := decide (spec.start now ≤ row.start)

def System.markRetiring (s : System) (row : ShardRow) (now : ℤ) : System :=
  { s with shards := s.shards.map fun r =>
      if r.file = row.file ∧ r.state = .active then { r with state := .retiring now } else r }

/-- `remove`: the handle, the file, then its row; a stop leaves the row. -/
def System.remove (s : System) (row : ShardRow) (stops : Bool) : System :=
  { s with
    handles := s.handles.filter fun k => !decide (k = (row.family, row.start))
    disk := s.disk.filter fun f => !decide (f.name = row.file)
    shards := if stops then s.shards else s.shards.filter fun r => !decide (r.file = row.file) }

/-- `trimShard`: rows older than the cutoff go; `hit` are those the batches got to. -/
def System.trim (s : System) (row : ShardRow) (cutoff : ℤ) (hit : ℤ → Bool) : System :=
  { s with disk := s.disk.map fun f => if f.name = row.file then
      { f with rows := f.rows.filter fun t => !(decide (t < cutoff) && hit t) } else f }

/-- `expireShard`, with the cutoff of the family of the row; `none` is the zero time. -/
def System.expireShard (s : System) (spec : ShardSpec) (row : ShardRow) (now : ℤ) (cutoff : Option ℤ)
    (stops : Bool) (hit : ℤ → Bool) : System :=
  match row.state with
  | .retiring since => if now - since < shardDeleteDelay then s else s.remove row stops
  | .active =>
    match cutoff with
    | none => s
    | some c =>
      if row.stop ≤ c ∧ writable spec row now = false then
        { s.markRetiring row now with retired := s.retired ++ [⟨row, c, s.rowsOf row.file⟩] }
      else if now - c < spec.length ∧ row.start < c ∧ c < row.stop then
        -- `onShard` opens the shard it trims
        (s.shard spec row.start false).trim row c hit
      else s

/-- What the writer and retention may do next. A restart is followed by its `reconcile`, one statement at
    a time, before any shard is opened. -/
inductive Event where
  | wait (d : ℕ)
  | restart (retention : Family → ℤ)
  | recordFile (name : FileName)
  | forgetRow (row : ShardRow)
  | ensure (f : Family) (t : ℤ) (stops : Bool)
  | closeEnded (now : ℤ)
  | insert (f : Family) (now : ℤ) (stamps : List ℤ) (stops : Bool)
  | expire (row : ShardRow) (now : ℤ) (cutoff : Option ℤ) (stops : Bool) (hit : ℤ → Bool)

def step (s : System) : Event → Option System
  | .wait d => some { s with clock := s.clock + d }
  | .restart retention => some { s with specs := specsOf retention, handles := [] }
  | .recordFile name =>
    match s.specs name.family with
    | some spec =>
      if s.handles = [] ∧ (∃ f ∈ s.disk, f.name = name) ∧ ∀ r ∈ s.shards, r.file ≠ name then
        some (s.record spec (parseFile name))
      else none
    | none => none
  | .forgetRow row =>
    if s.handles = [] ∧ (s.specs row.family).isSome ∧ row ∈ s.shards ∧
        ∀ f ∈ s.disk, f.name ≠ row.file then
      some { s with shards := s.shards.filter fun r => !decide (r.file = row.file) }
    else none
  | .ensure f t stops =>
    match s.specs f with
    | some spec => if t ≤ s.clock + shardLead then some (s.shard spec (spec.start t) stops) else none
    | none => none
  | .closeEnded now =>
    if now ≤ s.clock then
      some { s with handles := s.handles.filter fun k =>
        (s.specs k.1).any fun spec => decide (now < k.2 + (spec.length + endedCloseDelay)) }
    else none
  -- `now` picks the shard; the rows are stamped as their statements run
  | .insert f now stamps stops =>
    match s.specs f with
    | some spec =>
      if now ≤ s.clock ∧ ∀ t ∈ stamps, t ≤ s.clock then
        let t := s.shard spec (spec.start now) stops
        some (if (f, spec.start now) ∈ t.handles then t.write (file f (spec.start now)) stamps else t)
      else none
    | none => none
  | .expire row now cutoff stops hit =>
    match s.specs row.family with
    | some spec =>
      if row ∈ s.shards ∧ now ≤ s.clock then some (s.expireShard spec row now cutoff stops hit) else none
    | none => none

/-- An insert stamps its rows in the period it picked, and the shard of that period, where it is recorded
    already, is recorded to end no sooner. -/
def InPeriod (s : System) : Event → Prop
  | .insert f now stamps _ => ∀ spec ∈ s.specs f,
      (∀ t ∈ stamps, t < spec.start now + spec.length) ∧
      ∀ row ∈ s.shards, row.family = f → row.start = spec.start now →
        spec.start now + spec.length ≤ row.stop
  | _ => True

instance (s : System) (e : Event) : Decidable (InPeriod s e) := by
  unfold InPeriod; split <;> infer_instance

/-! ### The invariant -/

/-- A file named after its start, the row of every open handle and of every file with rows, and no row in
    a file that is not before the end of its shard. -/
structure Inv (s : System) : Prop where
  specs : ∀ f, ∀ spec ∈ s.specs f, spec.family = f
  named : ∀ r ∈ s.shards, r.file = file r.family r.start ∧ OnGrid r.family r.start
  opened : ∀ k ∈ s.handles, ∃ r ∈ s.shards, r.family = k.1 ∧ r.start = k.2
  recorded : ∀ f ∈ s.disk, f.rows ≠ [] → ∃ r ∈ s.shards, r.file = f.name
  before : ∀ f ∈ s.disk, ∀ r ∈ s.shards, r.file = f.name → ∀ t ∈ f.rows, t < r.stop
  expired : ∀ e ∈ s.retired, ∀ t ∈ e.rows, t < e.cutoff

theorem inv_start : Inv {} where
  specs := by simp
  named := forall_mem_nil _
  opened := forall_mem_nil _
  recorded := forall_mem_nil _
  before := forall_mem_nil _
  expired := forall_mem_nil _

variable {r : ShardRow} {spec : ShardSpec}

section inv
variable {s : System}

theorem Inv.create (h : Inv s) (name : FileName) : Inv (s.create name) := by
  unfold System.create
  split
  · exact h
  · refine { h with recorded := ?_, before := ?_ }
    · refine forall_mem_append.mpr ⟨h.recorded, forall_mem_singleton.mpr fun hne => ?_⟩
      exact absurd rfl hne
    · refine forall_mem_append.mpr ⟨h.before, forall_mem_singleton.mpr fun r _ _ => ?_⟩
      exact forall_mem_nil _

variable {start : ℤ}

/-- The row of a name is the one of its family and start. -/
theorem Inv.row_of_file (h : Inv s) (hr : r ∈ s.shards) (hg : OnGrid f start)
    (hf : r.file = file f start) : r.family = f ∧ r.start = start :=
  file_inj (h.named r hr).2 hg ((h.named r hr).1.symm.trans hf)

theorem Inv.record (h : Inv s) (spec : ShardSpec) (hg : OnGrid spec.family start) :
    Inv (s.record spec start) := by
  unfold System.record
  split
  · exact h
  · next hnew =>
    have hnone : ∀ r ∈ s.shards, ¬(r.family = spec.family ∧ r.start = start) := by
      simpa using hnew
    constructor
    · exact h.specs
    · exact forall_mem_append.mpr ⟨h.named, forall_mem_singleton.mpr ⟨rfl, hg⟩⟩
    · intro k hk
      obtain ⟨r, hr, hrk⟩ := h.opened k hk
      exact ⟨r, mem_append_left _ hr, hrk⟩
    · intro f hf hne
      obtain ⟨r, hr, hrf⟩ := h.recorded f hf hne
      exact ⟨r, mem_append_left _ hr, hrf⟩
    · intro f hf
      refine forall_mem_append.mpr ⟨h.before f hf, forall_mem_singleton.mpr ?_⟩
      -- a file with rows has its row already
      intro hname t ht
      obtain ⟨r, hr, hrf⟩ := h.recorded f hf (ne_nil_of_mem ht)
      exact absurd (h.row_of_file hr hg (hrf.trans hname.symm)) (hnone r hr)
    · exact h.expired

theorem mem_record :
    ∃ r ∈ (s.record spec start).shards, r.family = spec.family ∧ r.start = start := by
  unfold System.record
  split
  · next hany => simpa using hany
  · exact ⟨_, mem_append_right _ (mem_singleton_self _), rfl, rfl⟩

theorem stop_of_mem_record (h : r ∈ (s.record spec start).shards) :
    r ∈ s.shards ∨ r.stop = start + spec.length := by
  unfold System.record at h
  split at h
  · exact .inl h
  · refine (mem_append.mp h).imp_right fun h => ?_
    rw [mem_singleton.mp h]

@[simp] theorem create_shards (name : FileName) : (s.create name).shards = s.shards := by
  unfold System.create
  split <;> rfl

@[simp] theorem create_handles (name : FileName) : (s.create name).handles = s.handles := by
  unfold System.create
  split <;> rfl

@[simp] theorem record_handles (spec : ShardSpec) (start : ℤ) :
    (s.record spec start).handles = s.handles := by
  unfold System.record
  split <;> rfl

theorem Inv.shard (h : Inv s) (spec : ShardSpec) (hg : OnGrid spec.family start) (stops : Bool) :
    Inv (s.shard spec start stops) := by
  unfold System.shard
  split
  · exact h
  · split
    · exact h.create _
    · have hrec := (h.create (file spec.family start)).record spec hg
      refine { hrec with opened := forall_mem_cons.mpr ⟨mem_record, fun k hk => ?_⟩ }
      exact hrec.opened k (by simpa using hk)

/-- A shard that is opened was recorded before, or is recorded with the present length. -/
theorem stop_of_mem_shard {stops : Bool} (h : r ∈ (s.shard spec start stops).shards) :
    r ∈ s.shards ∨ r.stop = start + spec.length := by
  unfold System.shard at h
  split at h
  · exact .inl h
  · split at h
    · exact .inl (by simpa using h)
    · simpa using stop_of_mem_record h

/-- Rows from before the end of an open shard go into its file. -/
theorem Inv.write (h : Inv s) (hopen : (f, start) ∈ s.handles) (hg : OnGrid f start)
    {stamps : List ℤ}
    (hin : ∀ r ∈ s.shards, r.family = f → r.start = start → ∀ t ∈ stamps, t < r.stop) :
    Inv (s.write (file f start) stamps) := by
  refine { h with recorded := ?_, before := ?_ }
  · refine forall_mem_map.mpr fun g hgd hne => ?_
    by_cases hname : g.name = file f start
    · obtain ⟨r, hr, hrf, hrs⟩ := h.opened _ hopen
      refine ⟨r, hr, ?_⟩
      rw [if_pos hname, (h.named r hr).1, hrf, hrs, hname]
    · rw [if_neg hname] at hne ⊢
      exact h.recorded g hgd hne
  · refine forall_mem_map.mpr fun g hgd r hr hfile t ht => ?_
    by_cases hname : g.name = file f start
    · rw [if_pos hname] at hfile ht
      rcases mem_append.mp ht with ht | ht
      · exact h.before g hgd r hr hfile t ht
      · obtain ⟨hrf, hrs⟩ := h.row_of_file hr hg (hfile.trans hname)
        exact hin r hr hrf hrs t ht
    · rw [if_neg hname] at hfile ht
      exact h.before g hgd r hr hfile t ht

/-- Files may lose rows. -/
theorem Inv.trim (h : Inv s) (row : ShardRow) (cutoff : ℤ) (hit : ℤ → Bool) :
    Inv (s.trim row cutoff hit) := by
  have hsub : ∀ g : File, ∀ t ∈ (if g.name = row.file then
      { g with rows := g.rows.filter fun t => !(decide (t < cutoff) && hit t) } else g).rows,
      t ∈ g.rows := by
    intro g t ht
    split at ht
    · exact (mem_filter.mp ht).1
    · exact ht
  have hname : ∀ g : File, (if g.name = row.file then
      { g with rows := g.rows.filter fun t => !(decide (t < cutoff) && hit t) } else g).name =
      g.name := by
    intro g
    split <;> rfl
  refine { h with recorded := ?_, before := ?_ }
  · refine forall_mem_map.mpr fun g hg hne => ?_
    obtain ⟨t, ht⟩ := exists_mem_of_ne_nil _ hne
    rw [hname]
    exact h.recorded g hg (ne_nil_of_mem (hsub g t ht))
  · refine forall_mem_map.mpr fun g hg r hr hfile t ht => ?_
    rw [hname] at hfile
    exact h.before g hg r hr hfile t (hsub g t ht)

/-- A shard goes with its file. -/
theorem Inv.remove (h : Inv s) (row : ShardRow) (hrow : row ∈ s.shards) (stops : Bool) :
    Inv (s.remove row stops) := by
  have hshards : ∀ r ∈ (s.remove row stops).shards, r ∈ s.shards := by
    intro r hr
    simp only [System.remove] at hr
    split at hr
    · exact hr
    · exact (mem_filter.mp hr).1
  have hstay : ∀ r ∈ s.shards, r.file ≠ row.file → r ∈ (s.remove row stops).shards := by
    intro r hr hne
    simp only [System.remove]
    split
    · exact hr
    · exact mem_filter.mpr ⟨hr, by simpa using hne⟩
  constructor
  · exact h.specs
  · exact fun r hr => h.named r (hshards r hr)
  · intro k hk
    obtain ⟨hk, hne⟩ := mem_filter.mp hk
    obtain ⟨r, hr, hrf, hrs⟩ := h.opened k hk
    refine ⟨r, hstay r hr fun he => ?_, hrf, hrs⟩
    obtain ⟨hf, hs⟩ := h.row_of_file hr (h.named row hrow).2 (he.trans (h.named row hrow).1)
    have hkey : k = (row.family, row.start) := Prod.ext (hrf.symm.trans hf) (hrs.symm.trans hs)
    simp [hkey] at hne
  · intro f hf hne
    obtain ⟨hf, hother⟩ := mem_filter.mp hf
    obtain ⟨r, hr, hrf⟩ := h.recorded f hf hne
    refine ⟨r, hstay r hr ?_, hrf⟩
    rw [hrf]
    simpa using hother
  · intro f hf r hr
    exact h.before f (mem_filter.mp hf).1 r (hshards r hr)
  · exact h.expired

/-- A shard that ends by the cutoff holds rows from before it. -/
theorem Inv.retire (h : Inv s) {row : ShardRow} (hrow : row ∈ s.shards) (now : ℤ) {cutoff : ℤ}
    (hstop : row.stop ≤ cutoff) :
    Inv { s.markRetiring row now with
      retired := s.retired ++ [⟨row, cutoff, s.rowsOf row.file⟩] } := by
  have hsame : ∀ r : ShardRow, (if r.file = row.file ∧ r.state = .active then
      { r with state := .retiring now } else r) = r ∨ (if r.file = row.file ∧ r.state = .active then
      { r with state := .retiring now } else r) = { r with state := .retiring now } := by
    intro r
    split
    · exact .inr rfl
    · exact .inl rfl
  constructor
  · exact h.specs
  · refine forall_mem_map.mpr fun r hr => ?_
    rcases hsame r with he | he <;> rw [he] <;> exact h.named r hr
  · intro k hk
    obtain ⟨r, hr, hrk⟩ := h.opened k hk
    refine ⟨_, mem_map_of_mem hr, ?_⟩
    rcases hsame r with he | he <;> rw [he] <;> exact hrk
  · intro f hf hne
    obtain ⟨r, hr, hrf⟩ := h.recorded f hf hne
    refine ⟨_, mem_map_of_mem hr, ?_⟩
    rcases hsame r with he | he <;> rw [he] <;> exact hrf
  · intro f hf
    refine forall_mem_map.mpr fun r hr => ?_
    rcases hsame r with he | he <;> rw [he] <;> exact h.before f hf r hr
  · refine forall_mem_append.mpr ⟨h.expired, forall_mem_singleton.mpr fun t ht => ?_⟩
    obtain ⟨f, hf, ht⟩ := mem_flatMap.mp ht
    obtain ⟨hf, hname⟩ := mem_filter.mp hf
    have := h.before f hf row hrow (of_decide_eq_true hname).symm t ht
    exact lt_of_lt_of_le this hstop

theorem Inv.expireShard (h : Inv s) (spec : ShardSpec) {row : ShardRow} (hrow : row ∈ s.shards)
    (hspec : spec.family = row.family) (now : ℤ) (cutoff : Option ℤ) (stops : Bool) (hit : ℤ → Bool) :
    Inv (s.expireShard spec row now cutoff stops hit) := by
  unfold System.expireShard
  split
  · split
    · exact h
    · exact h.remove row hrow stops
  · split
    · exact h
    · split
      · next hc => exact h.retire hrow now hc.1
      · split
        · refine (h.shard spec ?_ false).trim _ _ _
          rw [hspec]
          exact (h.named row hrow).2
        · exact h

end inv

/-! ### Runs -/

theorem specsOf_family {retention : Family → ℤ} (h : spec ∈ specsOf retention f) :
    spec.family = f := by
  unfold specsOf at h
  split at h
  · cases h; rfl
  · cases h

theorem parseFile_onGrid (name : FileName) : OnGrid name.family (parseFile name) := by
  rw [onGrid_iff, parseFile, add_sub_cancel_left]
  exact Dvd.intro_left _ rfl

/-- An insert that stays in its period. -/
theorem Inv.insert {s : System} (h : Inv s) {now : ℤ} {stamps : List ℤ} (stops : Bool)
    (hstamps : ∀ t ∈ stamps, t < spec.start now + spec.length)
    (hstop : ∀ row ∈ s.shards, row.family = spec.family → row.start = spec.start now →
      spec.start now + spec.length ≤ row.stop)
    (hopen : (spec.family, spec.start now) ∈ (s.shard spec (spec.start now) stops).handles) :
    Inv ((s.shard spec (spec.start now) stops).write (file spec.family (spec.start now)) stamps) := by
  have hg := spec.start_onGrid now
  refine (h.shard spec hg stops).write hopen hg fun r hr hf hs t ht => ?_
  have hlt := hstamps t ht
  rcases stop_of_mem_shard hr with hr | hr
  · exact lt_of_lt_of_le hlt (hstop r hr hf hs)
  · rwa [hr]

theorem inv_step (s : System) (e : Event) (s' : System) (h : Inv s) (hin : InPeriod s e)
    (hstep : step s e = some s') : Inv s' := by
  cases e with
  | wait d => cases hstep; exact { h with }
  | restart retention =>
    cases hstep
    exact { h with specs := fun f spec => specsOf_family, opened := forall_mem_nil _ }
  | recordFile name =>
    simp only [step] at hstep
    split at hstep
    · next spec hspec =>
      split at hstep
      · cases hstep
        refine h.record spec ?_
        rw [h.specs _ spec hspec]
        exact parseFile_onGrid name
      · cases hstep
    · cases hstep
  | forgetRow row =>
    simp only [step] at hstep
    split at hstep
    · next hc =>
      obtain ⟨hnone, -, -, hgone⟩ := hc
      cases hstep
      refine ⟨h.specs, fun r hr => h.named r (mem_filter.mp hr).1, ?_, fun f hf hne => ?_,
        fun f hf r hr => h.before f hf r (mem_filter.mp hr).1, h.expired⟩
      · rw [hnone]
        exact forall_mem_nil _
      · obtain ⟨r, hr, hrf⟩ := h.recorded f hf hne
        exact ⟨r, mem_filter.mpr ⟨hr, by simpa [hrf] using hgone f hf⟩, hrf⟩
    · cases hstep
  | ensure f t stops =>
    simp only [step] at hstep
    split at hstep
    · next spec hspec =>
      split at hstep
      · cases hstep; exact h.shard spec (spec.start_onGrid t) stops
      · cases hstep
    · cases hstep
  | closeEnded now =>
    simp only [step] at hstep
    split at hstep
    · cases hstep
      exact { h with opened := fun k hk => h.opened k (mem_filter.mp hk).1 }
    · cases hstep
  | insert f now stamps stops =>
    simp only [step] at hstep
    split at hstep
    · next spec hspec =>
      obtain rfl := h.specs f spec hspec
      obtain ⟨hstamps, hstop⟩ := hin spec hspec
      split at hstep
      · cases hstep
        split
        · next hopen => exact h.insert stops hstamps hstop hopen
        · exact h.shard spec (spec.start_onGrid now) stops
      · cases hstep
    · cases hstep
  | expire row now cutoff stops hit =>
    simp only [step] at hstep
    split at hstep
    · next spec hspec =>
      split at hstep
      · next hc => cases hstep; exact h.expireShard spec hc.1 (h.specs _ spec hspec) now cutoff stops hit
      · cases hstep
    · cases hstep

/-- CORRECT: while every insert stays in the period it picked, and picks no shard that was recorded under
    a shorter one, a shard that expires holds rows from before the cutoff only. -/
theorem retired_shards_expired (es : List Event) (s : System) (hrun : run step {} es = some s)
    (hin : Meets step InPeriod {} es) : ∀ e ∈ s.retired, ∀ t ∈ e.rows, t < e.cutoff :=
  (inv_run_meets inv_step inv_start hin hrun).expired

/-! ### A longer period over a recorded shard -/

/-- Logs are kept for so many days; the other families are not sharded. -/
def logDays (n : ℤ) : Family → ℤ
  | .logs => n * dayNanos
  | _ => 0

/-- The log shard of day 0, as the table has it. -/
def dayZero (stop : ℤ) : ShardRow := ⟨.logs, ⟨.logs, 0⟩, 0, stop, .active⟩

/-- A log line at noon of the second day, and the retention run of the morning of day 10. -/
def lineThenExpire (cutoff : ℤ) (row : ShardRow) : List Event :=
  [.wait (36 * 3600 * 10 ^ 9), .insert .logs (36 * hourNanos) [36 * hourNanos] false,
    .wait (209 * 3600 * 10 ^ 9), .expire row (245 * hourNanos) (some cutoff) false fun _ => false]

/-- Started with eight days of logs, restarted with nine. -/
def lengthened : List Event :=
  [.restart (logDays 8), .ensure .logs 0 false, .restart (logDays 9)] ++
    lineThenExpire (29 * hourNanos) (dayZero dayNanos)

theorem lengthened_retires_early : ∃ s, run step {} lengthened = some s ∧
    ∃ e ∈ s.retired, ∃ t ∈ e.rows, e.cutoff ≤ t := by
  have h : (run step {} lengthened).any (fun s => s.retired.any fun e => e.rows.any fun t =>
      decide (e.cutoff ≤ t)) = true := by
    decide +kernel
  simpa [Option.any_eq_true, any_eq_true] using h

/-- With nine days from the start the shard is recorded to end on day 2, and the line is older than the
    cutoff that retires it. -/
def nineDays : List Event :=
  [.restart (logDays 9), .ensure .logs 0 false] ++
    lineThenExpire (60 * hourNanos) (dayZero (2 * dayNanos))

theorem retired_shards_expired_nine_days : ∃ s, run step {} nineDays = some s ∧
    (∃ e ∈ s.retired, e.rows = [36 * hourNanos]) ∧
    ∀ e ∈ s.retired, ∀ t ∈ e.rows, t < e.cutoff := by
  have h : (run step {} nineDays).any (fun s => s.retired.any fun e =>
      decide (e.rows = [36 * hourNanos])) = true := by
    decide +kernel
  simp only [Option.any_eq_true, any_eq_true, decide_eq_true_eq] at h
  obtain ⟨s, hrun, hone⟩ := h
  exact ⟨s, hrun, hone, retired_shards_expired nineDays s hrun (by decide +kernel)⟩

end Spanbarn.Shards
