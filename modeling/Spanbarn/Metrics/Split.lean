import Mathlib.Data.Multiset.Filter
import Mathlib.Tactic.Abel
import Spanbarn.Metrics.Fold

/-! The stored row does not depend on the flushes, as long as rows that meet add up.

    Every point added is in exactly one place: a slot, a row that waits, a row of the batch being
    written, a stored row, or a row given up. A slot is the fold of its points in arrival order; so is
    the row a flush makes of it; and a stored row has the figures of that fold over all its points,
    also after the conflict clause has merged another row into it. Once a key is settled, the points of
    its stored row are all the points of the key.

    A write meets a stored row when a bucket was flushed before its last point came in: at shutdown, by
    a point later than the flush, or by a row that had to wait. -/

namespace Spanbarn.Metrics
open List Spanbarn.Schemes

/-! ### When rows may meet -/

/-- The points in arrival order. -/
def byArrival (ps : List Point) : List Point := ps.insertionSort fun p q => p.seq ≤ q.seq

/-- The points of a stored row and of a row written over it: one kind that adds up, the newest of them
    in the row that is written, and sums that are exact, of the points of each row and of all of them.
    Histograms keep no newest point. -/
def Mergeable (codec : Codec) (old new : List Point) : Prop :=
  (∀ p ∈ old ++ new, ∀ q ∈ old ++ new,
    p.record.type = q.record.type ∧ p.record.temporality = q.record.temporality) ∧
  (∀ p ∈ old ++ new, p.record.AddsUp codec) ∧
  (∀ p ∈ old, p.record.type ≠ .histogram → ∃ q ∈ new, NoLater Point.time Point.seq p q) ∧
  AddsExactly (byArrival old) ∧ AddsExactly new ∧ AddsExactly (byArrival (old ++ new))

instance (codec : Codec) (old new : List Point) : Decidable (Mergeable codec old new) := by
  unfold Mergeable; infer_instance

/-- The row finds no stored row of its key, or one it may be merged into. -/
def Fits (codec : Codec) (table : Dict MetricKey (Made MetricRollup)) (r : Made MetricRollup) :
    Prop :=
  match table.lookup r.it.key with
  | none => True
  | some old => Mergeable codec old.points r.points

instance (codec : Codec) (table : Dict MetricKey (Made MetricRollup)) (r : Made MetricRollup) :
    Decidable (Fits codec table r) := by
  unfold Fits
  split <;> infer_instance

/-- Every row of the chunk does, in turn. -/
def FitsAll (codec : Codec) :
    Dict MetricKey (Made MetricRollup) → List (Made MetricRollup) → Prop
  | _, [] => True
  | table, r :: rest => Fits codec table r ∧ FitsAll codec (upsert table r) rest

instance decidableFitsAll (codec : Codec) :
    ∀ table rows, Decidable (FitsAll codec table rows)
  | _, [] => isTrue trivial
  | table, r :: rest =>
    have := decidableFitsAll codec (upsert table r) rest
    inferInstanceAs (Decidable (Fits codec table r ∧ FitsAll codec (upsert table r) rest))

/-- The condition on a step: what it writes may be merged into what is stored. -/
def WritesFit (cfg : Config) (s : System) : Action → Prop
  | .write true =>
    match s.writing with
    | some ⟨chunk :: _, _⟩ => FitsAll cfg.codec s.table chunk
    | _ => True
  | _ => True

instance (cfg : Config) (s : System) (a : Action) : Decidable (WritesFit cfg s a) := by
  unfold WritesFit
  split
  · split <;> infer_instance
  · infer_instance

/-! ### Slots and rows as folds -/

/-- The points of one key. -/
def ofKey (cfg : Config) (k : MetricKey) (ps : List Point) : List Point :=
  ps.filter fun p => metricKey cfg p.record = k

/-- The row a single slot makes of all points added, in one flush. -/
def singleSlot (cfg : Config) (k : MetricKey) (ps : List Point) : Option MetricRollup :=
  ((ps.foldl (addMetric cfg) ∅).lookup k).map fun m => m.it.toRollup cfg.codec k

theorem lookup_addMetric (cfg : Config) (slots : Dict MetricKey (Made Slot)) (p : Point)
    (k : MetricKey) :
    (addMetric cfg slots p).lookup k =
      if metricKey cfg p.record = k then
        some ⟨((slots.lookup k).getD ⟨newSlot cfg.codec p.record, []⟩).it.addPoint cfg.codec p.record,
          ((slots.lookup k).getD ⟨newSlot cfg.codec p.record, []⟩).points ++ [p]⟩
      else slots.lookup k := by
  split
  · rename_i hk
    subst hk
    exact AList.lookup_insert _
  · rename_i hk
    exact AList.lookup_insert_ne (Ne.symm hk)

theorem lookup_addMetrics (cfg : Config) (k : MetricKey) (ps : List Point) :
    (ps.foldl (addMetric cfg) ∅).lookup k =
      (slotOf cfg.codec (ofKey cfg k ps)).map fun sl => ⟨sl, ofKey cfg k ps⟩ := by
  induction ps using List.reverseRecOn with
  | nil => rfl
  | append_singleton ps p ih =>
    rw [foldl_append, foldl_cons, foldl_nil, lookup_addMetric, ih]
    by_cases hk : metricKey cfg p.record = k
    · have hof : ofKey cfg k (ps ++ [p]) = ofKey cfg k ps ++ [p] := by simp [ofKey, hk]
      rw [if_pos hk, hof, slotOf_snoc]
      cases hsl : slotOf cfg.codec (ofKey cfg k ps) with
      | none => simp [eq_nil_of_slotOf hsl]
      | some sl => rfl
    · have hof : ofKey cfg k (ps ++ [p]) = ofKey cfg k ps := by simp [ofKey, hk]
      rw [if_neg hk, hof]

theorem singleSlot_eq (cfg : Config) (k : MetricKey) (ps : List Point) :
    singleSlot cfg k ps =
      (slotOf cfg.codec (ofKey cfg k ps)).map fun sl => sl.toRollup cfg.codec k := by
  rw [singleSlot, lookup_addMetrics, Option.map_map]
  rfl

/-- A slot is the fold of its points, all of its key, in arrival order. -/
structure FoldOf (cfg : Config) (k : MetricKey) (sl : Slot) (ps : List Point) : Prop where
  fold : slotOf cfg.codec ps = some sl
  keyed : ∀ p ∈ ps, metricKey cfg p.record = k
  ordered : ps.Pairwise fun p q => p.seq ≤ q.seq

/-- A row made by a flush. -/
def RowOf (cfg : Config) (r : Made MetricRollup) : Prop :=
  ∃ k sl, r.it = sl.toRollup cfg.codec k ∧ FoldOf cfg k sl r.points

/-- A stored row has the figures of the fold of its points. -/
structure Stored (cfg : Config) (k : MetricKey) (e : Made MetricRollup) : Prop where
  keyed : ∀ p ∈ e.points, metricKey cfg p.record = k
  fold : ∃ sl, slotOf cfg.codec (byArrival e.points) = some sl ∧
    e.it.figures = (sl.toRollup cfg.codec k).figures

instance : Std.Total fun p q : Point => p.seq ≤ q.seq := ⟨fun _ _ => le_total _ _⟩

instance : IsTrans Point fun p q => p.seq ≤ q.seq := ⟨fun _ _ _ => le_trans⟩

theorem byArrival_ordered (ps : List Point) :
    (byArrival ps).Pairwise fun p q => p.seq ≤ q.seq := pairwise_insertionSort _ ps

theorem byArrival_perm (ps : List Point) : (byArrival ps).Perm ps := perm_insertionSort _ ps

variable {r : Made MetricRollup}

section rows
variable {cfg : Config} {k : MetricKey} {ty : MetricType} {temp : Temporality} {ps qs : List Point}

theorem tells_slotOf {sl : Slot} (h : slotOf cfg.codec ps = some sl)
    (hord : ps.Pairwise fun p q => p.seq ≤ q.seq)
    (hkind : ∀ p ∈ ps, p.record.type = ty ∧ p.record.temporality = temp)
    (hadd : ∀ p ∈ ps, p.record.AddsUp cfg.codec) (hexact : AddsExactly ps) :
    Tells ty temp ps (sl.toRollup cfg.codec k).figures := by
  refine (holds_slotOf hkind hadd hexact h).tells ?_ hord k
  rintro rfl
  cases h

/-- A row that meets none. -/
theorem Stored.insert (h : RowOf cfg r) :
    Stored cfg r.it.key ⟨r.it.inserted, r.points⟩ := by
  obtain ⟨k, sl, hr, hf⟩ := h
  rw [hr]
  refine ⟨hf.keyed, sl, ?_, rfl⟩
  rw [byArrival, hf.ordered.insertionSort_eq]
  exact hf.fold

/-- A row merged into the stored one. -/
theorem Stored.merge {e : Made MetricRollup} (he : Stored cfg r.it.key e) (hr : RowOf cfg r)
    (hm : Mergeable cfg.codec e.points r.points) (hd : Distinct (e.points ++ r.points)) :
    Stored cfg r.it.key ⟨e.it.conflict r.it, e.points ++ r.points⟩ := by
  obtain ⟨k, sl, hrow, hf⟩ := hr
  rw [hrow, Slot.toRollup_key] at he ⊢
  obtain ⟨hsame, hadd, hnewest, heold, henew, heall⟩ := hm
  obtain ⟨sl', hsl', hfig⟩ := he.fold
  obtain ⟨p, hp⟩ : ∃ p, p ∈ e.points := by
    refine exists_mem_of_ne_nil _ fun hnil => ?_
    rw [hnil] at hsl'
    cases hsl'
  have hkind : ∀ q ∈ e.points ++ r.points,
      q.record.type = p.record.type ∧ q.record.temporality = p.record.temporality :=
    fun q hq => hsame q hq p (mem_append_left _ hp)
  -- what the stored row says, what the written row says, and what the merged row then says
  have hold : Tells p.record.type p.record.temporality e.points e.it.figures := by
    rw [hfig]
    have hmem : ∀ q ∈ byArrival e.points, q ∈ e.points ++ r.points := fun q hq =>
      mem_append_left _ ((byArrival_perm _).mem_iff.mp hq)
    exact (tells_slotOf hsl' (byArrival_ordered _) (fun q hq => hkind q (hmem q hq))
      (fun q hq => hadd q (hmem q hq)) heold).perm (byArrival_perm _)
  have hnew : Tells p.record.type p.record.temporality r.points (sl.toRollup cfg.codec k).figures :=
    tells_slotOf hf.fold hf.ordered (fun q hq => hkind q (mem_append_right _ hq))
      (fun q hq => hadd q (mem_append_right _ hq)) henew
  have hmerged := hold.conflict hnew (heold.all.perm (byArrival_perm _)) henew.all
    (heall.all.perm (byArrival_perm _)) fun hty q hq =>
      hnewest q hq ((hkind q (mem_append_left _ hq)).1 ▸ hty)
  refine ⟨fun q hq => ?_, ?_⟩
  · rcases mem_append.mp hq with hq | hq
    · exact he.keyed q hq
    · exact hf.keyed q hq
  · obtain ⟨all, hall⟩ : ∃ all, slotOf cfg.codec (byArrival (e.points ++ r.points)) = some all := by
      refine Option.ne_none_iff_exists'.mp fun hnone => ?_
      have hnil := (byArrival_perm (e.points ++ r.points)).symm.mem_iff.mp
        (mem_append_left _ hp)
      rw [eq_nil_of_slotOf hnone] at hnil
      cases hnil
    have hmem : ∀ q ∈ byArrival (e.points ++ r.points), q ∈ e.points ++ r.points := fun q hq =>
      (byArrival_perm _).mem_iff.mp hq
    have htells := (tells_slotOf (k := k) hall (byArrival_ordered _)
      (fun q hq => hkind q (hmem q hq)) (fun q hq => hadd q (hmem q hq)) heall).perm
        (byArrival_perm _)
    exact ⟨all, hall, hmerged.unique htells hd⟩

end rows

/-! ### Where the points are -/

/-- The points behind a slot or a row, as a multiset. -/
def Made.bag {α : Type} (m : Made α) : Multiset Point := m.points

def bag (rows : List (Made MetricRollup)) : Multiset Point := pointsOf rows

/-- The points of everything the system holds or has given up. -/
def System.accounts (s : System) : Multiset Point :=
  total Made.bag s.slots + bag s.pending + bag s.unwritten + total Made.bag s.table + s.dropped

theorem bag_append (a b : List (Made MetricRollup)) : bag (a ++ b) = bag a + bag b := by
  simp [bag, pointsOf]

theorem bag_cons (r : Made MetricRollup) (rows : List (Made MetricRollup)) :
    bag (r :: rows) = r.bag + bag rows := by
  simp [bag, pointsOf, Made.bag]

theorem bag_perm {a b : List (Made MetricRollup)} (h : a.Perm b) : bag a = bag b :=
  Multiset.coe_eq_coe.mpr (h.flatMap_right _)

theorem bag_filter (p : Made MetricRollup → Bool) (rows : List (Made MetricRollup)) :
    bag (rows.filter p) + bag (rows.filter fun r => !p r) = bag rows := by
  rw [← bag_append]
  exact bag_perm (filter_append_perm p rows)

variable {p : Point}

theorem mem_bag {rows : List (Made MetricRollup)} :
    p ∈ bag rows ↔ ∃ r ∈ rows, p ∈ r.points := by
  simp [bag, pointsOf]

theorem bag_rollups (codec : Codec) (slots : Dict MetricKey (Made Slot)) :
    bag (rollups codec slots) = total Made.bag slots := by
  rw [rollups, total, values]
  induction slots.entries with
  | nil => rfl
  | cons e l ih =>
    rw [map_cons, bag_cons, ih]
    rfl

theorem total_addMetric (cfg : Config) (slots : Dict MetricKey (Made Slot)) (p : Point) :
    total Made.bag (addMetric cfg slots p) = total Made.bag slots + {p} := by
  cases hl : slots.lookup (metricKey cfg p.record) with
  | none =>
    have hadd : addMetric cfg slots p = slots.insert (metricKey cfg p.record)
        ⟨(newSlot cfg.codec p.record).addPoint cfg.codec p.record, [p]⟩ := by
      simp [addMetric, hl]
    rw [hadd, total_insert_of_none hl, add_comm]
    rfl
  | some m =>
    have hadd : addMetric cfg slots p = slots.insert (metricKey cfg p.record)
        ⟨m.it.addPoint cfg.codec p.record, m.points ++ [p]⟩ := by
      simp [addMetric, hl]
    refine add_right_cancel (b := m.bag) ?_
    rw [hadd, total_insert hl]
    simp only [Made.bag, ← Multiset.coe_add, Multiset.coe_singleton]
    abel

theorem total_upsert (table : Dict MetricKey (Made MetricRollup)) (r : Made MetricRollup) :
    total Made.bag (upsert table r) = total Made.bag table + r.bag := by
  unfold upsert
  cases hl : table.lookup r.it.key with
  | none =>
    simp only
    rw [total_insert_of_none hl, add_comm]
    rfl
  | some old =>
    refine add_right_cancel (b := old.bag) ?_
    simp only
    rw [total_insert hl]
    simp only [Made.bag, ← Multiset.coe_add]
    abel

theorem total_upserts (rows : List (Made MetricRollup)) :
    ∀ table : Dict MetricKey (Made MetricRollup),
      total Made.bag (rows.foldl upsert table) = total Made.bag table + bag rows := by
  induction rows with
  | nil => intro table; simp [bag, pointsOf]
  | cons r rows ih =>
    intro table
    rw [foldl_cons, ih, total_upsert, bag_cons, add_assoc]

/-- What holds at any time: the points are numbered by arrival and all accounted for, and every slot
    and every row is what its points make of it. -/
structure Inv (cfg : Config) (s : System) : Prop where
  numbered : s.points.map Point.seq = List.range s.points.length
  accounted : (s.points : Multiset Point) = s.accounts
  slots : ∀ k m, s.slots.lookup k = some m → FoldOf cfg k m.it m.points
  pending : ∀ r ∈ s.pending, RowOf cfg r
  unwritten : ∀ r ∈ s.unwritten, RowOf cfg r
  table : ∀ k e, s.table.lookup k = some e → Stored cfg k e

/-! ### Steps -/

variable {now : Option ℤ}

section steps
variable {cfg : Config} {s s' : System}

/-- Points that arrived at different moments, wherever they are. -/
def Apart (b : Multiset Point) : Prop := ∀ p ∈ b, ∀ q ∈ b, p.seq = q.seq → p = q

theorem Inv.apart (h : Inv cfg s) : Apart s.accounts := by
  have hnodup : (s.points.map Point.seq).Nodup := h.numbered ▸ nodup_range
  intro p hp q hq
  rw [← h.accounted, Multiset.mem_coe] at hp hq
  exact fun hpq => inj_on_of_nodup_map hnodup hp hq hpq

theorem Inv.seq_lt (h : Inv cfg s) (hp : p ∈ s.accounts) : p.seq < s.points.length := by
  rw [← h.accounted, Multiset.mem_coe] at hp
  rw [← mem_range, ← h.numbered]
  exact mem_map_of_mem hp

theorem inv_init (cfg : Config) : Inv cfg {} where
  numbered := rfl
  accounted := rfl
  slots := fun _ _ h => by cases h
  pending := fun _ hr => absurd hr not_mem_nil
  unwritten := fun _ hr => absurd hr not_mem_nil
  table := fun _ _ h => by cases h

theorem Inv.add (h : Inv cfg s) (rec : MetricRecord) : Inv cfg (s.add cfg rec) := by
  refine ⟨?_, ?_, ?_, h.pending, h.unwritten, h.table⟩
  · simp [System.add, h.numbered, range_succ]
  · change ((s.points ++ [_] : List Point) : Multiset Point) =
      total Made.bag (addMetric cfg s.slots _) + bag s.pending + bag s.unwritten +
        total Made.bag s.table + s.dropped
    rw [total_addMetric, ← Multiset.coe_add, h.accounted, System.accounts, Multiset.coe_singleton]
    abel
  · intro k m hm
    change (addMetric cfg s.slots _).lookup k = some m at hm
    rw [lookup_addMetric] at hm
    split at hm
    · rename_i hk
      cases hm
      cases hl : s.slots.lookup k with
      | none =>
        exact ⟨slotOf_snoc cfg.codec [] _, by simpa using hk, by simp⟩
      | some old =>
        have hf := h.slots k old hl
        refine ⟨?_, ?_, ?_⟩
        · rw [Option.getD_some, slotOf_snoc, hf.fold]
          rfl
        · intro p hp
          rcases mem_append.mp hp with hp | hp
          · exact hf.keyed p hp
          · rw [mem_singleton.mp hp]
            exact hk
        · -- the new point has the highest number
          refine pairwise_append.mpr ⟨hf.ordered, by simp, fun p hp q hq => ?_⟩
          have hacc : p ∈ s.accounts := by
            have : p ∈ total Made.bag s.slots := mem_total.mpr ⟨k, old, hl, hp⟩
            simp [System.accounts, this]
          rw [mem_singleton.mp hq]
          exact (h.seq_lt hacc).le
    · exact h.slots k m hm

theorem take_unwritten (stay : MetricKey → Bool) (now : Option ℤ)
    (order : List (Made MetricRollup)) : (s.take stay now order).unwritten = order := by
  unfold System.take System.unwritten
  cases order with
  | nil => rfl
  | cons r rest => exact flatten_chunks (by decide) _

theorem Inv.take {stay : MetricKey → Bool} {order : List (Made MetricRollup)} (h : Inv cfg s)
    (hidle : s.writing = none) (hperm : order.Perm (s.leaving cfg stay)) :
    Inv cfg (s.take stay now order) := by
  refine ⟨h.numbered, ?_, ?_, fun _ hr => absurd hr not_mem_nil, ?_, h.table⟩
  · have hun : s.unwritten = [] := by rw [System.unwritten, hidle]
    have hkeep := total_keep stay Made.bag s.slots
    rw [System.accounts, take_unwritten, bag_perm hperm, System.leaving, bag_append, bag_rollups]
    refine h.accounted.trans ?_
    change _ = total Made.bag (keep stay s.slots) + bag [] + _ + total Made.bag s.table + s.dropped
    rw [System.accounts, hun, ← hkeep]
    simp only [bag, pointsOf, flatMap_nil, Multiset.coe_nil, add_zero]
    abel
  · intro k m hm
    change (keep stay s.slots).lookup k = some m at hm
    rw [lookup_keep] at hm
    split at hm
    · exact h.slots k m hm
    · cases hm
  · intro r hr
    rw [take_unwritten] at hr
    rcases mem_append.mp (hperm.mem_iff.mp hr) with hr | hr
    · exact h.pending r hr
    · obtain ⟨e, he, rfl⟩ := mem_map.mp hr
      have hl := AList.mem_lookup_iff.mpr he
      rw [Option.mem_def, lookup_keep] at hl
      split at hl
      · exact ⟨e.1, e.2.it, rfl, h.slots e.1 e.2 hl⟩
      · cases hl

theorem Inv.stop (h : Inv cfg s) : Inv cfg (s.stop now s.unwritten) := by
  refine ⟨h.numbered, ?_, h.slots, ?_, fun _ hr => absurd hr not_mem_nil, h.table⟩
  · refine h.accounted.trans ?_
    have hf := bag_filter (retried now) s.unwritten
    change _ = total Made.bag s.slots + bag (s.unwritten.filter (retried now) ++ s.pending) + bag [] +
      total Made.bag s.table + ((s.dropped ++ pointsOf _ : List Point) : Multiset Point)
    rw [System.accounts, bag_append, ← hf, ← Multiset.coe_add]
    simp only [bag, pointsOf, flatMap_nil, Multiset.coe_nil, add_zero]
    abel
  · intro r hr
    rcases mem_append.mp hr with hr | hr
    · exact h.unwritten r (mem_of_mem_filter hr)
    · exact h.pending r hr

theorem Inv.crash (h : Inv cfg s) : Inv cfg (s.crash cfg) := by
  refine ⟨h.numbered, ?_, ?_, fun _ hr => absurd hr not_mem_nil,
    fun _ hr => absurd hr not_mem_nil, h.table⟩
  swap
  · intro k m hm
    cases hm
  refine h.accounted.trans ?_
  change _ = total Made.bag (∅ : Dict MetricKey (Made Slot)) + bag [] + bag [] +
    total Made.bag s.table + ((s.dropped ++ pointsOf _ : List Point) : Multiset Point)
  rw [← Multiset.coe_add]
  change _ = _ + _ + _ + _ + (_ + bag _)
  rw [bag_append, bag_append, bag_rollups, System.accounts, total_empty]
  simp only [bag, pointsOf, flatMap_nil, Multiset.coe_nil, add_zero, zero_add]
  abel

theorem stored_upsert {table : Dict MetricKey (Made MetricRollup)}
    (ht : ∀ k e, table.lookup k = some e → Stored cfg k e) (hr : RowOf cfg r)
    (hfit : Fits cfg.codec table r) (hd : Apart (total Made.bag table + r.bag)) :
    ∀ k e, (upsert table r).lookup k = some e → Stored cfg k e := by
  intro k e hk
  unfold upsert at hk
  unfold Fits at hfit
  cases hl : table.lookup r.it.key with
  | none =>
    rw [hl] at hk
    rcases lookup_of_insert hk with ⟨rfl, rfl⟩ | ⟨-, hk⟩
    · exact .insert hr
    · exact ht k e hk
  | some old =>
    rw [hl] at hk hfit
    rcases lookup_of_insert hk with ⟨rfl, rfl⟩ | ⟨-, hk⟩
    · have hmem : ∀ p ∈ old.points ++ r.points, p ∈ total Made.bag table + r.bag := by
        intro p hp
        rcases mem_append.mp hp with hp | hp
        · exact Multiset.mem_add.mpr (.inl (mem_total.mpr ⟨_, old, hl, hp⟩))
        · exact Multiset.mem_add.mpr (.inr hp)
      exact (ht _ old hl).merge hr hfit fun p hp q hq => hd p (hmem p hp) q (hmem q hq)
    · exact ht k e hk

theorem stored_upserts {rows : List (Made MetricRollup)} :
    ∀ {table : Dict MetricKey (Made MetricRollup)},
      (∀ k e, table.lookup k = some e → Stored cfg k e) → (∀ r ∈ rows, RowOf cfg r) →
      FitsAll cfg.codec table rows → Apart (total Made.bag table + bag rows) →
      ∀ k e, (rows.foldl upsert table).lookup k = some e → Stored cfg k e := by
  induction rows with
  | nil =>
    intro table ht _ _ _
    exact ht
  | cons r rows ih =>
    intro table ht hr hfit hd
    have hbag : total Made.bag table + bag (r :: rows) =
        total Made.bag (upsert table r) + bag rows := by
      rw [bag_cons, total_upsert, add_assoc]
    refine ih (stored_upsert ht (hr r (by simp)) hfit.1 ?_) (fun q hq => hr q (by simp [hq])) hfit.2
      (hbag ▸ hd)
    intro p hp q hq
    refine hd p ?_ q ?_ <;> rw [hbag, total_upsert]
    · exact Multiset.mem_add.mpr (.inl hp)
    · exact Multiset.mem_add.mpr (.inl hq)

theorem Inv.write {chunk : List (Made MetricRollup)} {rest : List (List (Made MetricRollup))}
    (h : Inv cfg s) (hw : s.writing = some ⟨chunk :: rest, now⟩)
    (hfit : FitsAll cfg.codec s.table chunk) :
    Inv cfg { s.writeChunk chunk with writing := some ⟨rest, now⟩ } := by
  have hun : s.unwritten = chunk ++ rest.flatten := by rw [System.unwritten, hw]; rfl
  refine ⟨h.numbered, ?_, h.slots, h.pending, ?_, ?_⟩
  · refine h.accounted.trans ?_
    change _ = total Made.bag s.slots + bag s.pending + bag rest.flatten +
      total Made.bag (chunk.foldl upsert s.table) + s.dropped
    rw [total_upserts, System.accounts, hun, bag_append]
    abel
  · intro r hr
    exact h.unwritten r (hun ▸ mem_append_right _ hr)
  · refine stored_upserts h.table (fun r hr => h.unwritten r (hun ▸ mem_append_left _ hr)) hfit ?_
    have hsub : ∀ p ∈ total Made.bag s.table + bag chunk, p ∈ s.accounts := by
      intro p hp
      rw [System.accounts, hun, bag_append]
      simp only [Multiset.mem_add] at hp ⊢
      tauto
    exact fun p hp q hq => h.apart p (hsub p hp) q (hsub q hq)

/-- STEP: a step whose writes fit keeps every row the fold of its points. -/
theorem inv_step {a : Action} (h : Inv cfg s) (hfit : WritesFit cfg s a)
    (hs : step cfg s a = some s') : Inv cfg s' := by
  cases Step.of_step hs with
  | add => exact h.add _
  | take hidle hperm => exact h.take hidle hperm
  | @finished ok now hw =>
    have hun : s.unwritten = [] := by rw [System.unwritten, hw]; rfl
    refine ⟨h.numbered, ?_, h.slots, h.pending, fun _ hr => absurd hr not_mem_nil, h.table⟩
    refine h.accounted.trans ?_
    rw [System.accounts, hun]
    rfl
  | @written chunk rest now hw =>
    refine h.write hw ?_
    simpa only [WritesFit, hw] using hfit
  | @stopped chunk rest now hw =>
    have hun : s.unwritten = (chunk :: rest).flatten := by rw [System.unwritten, hw]
    exact hun ▸ h.stop
  | crash => exact h.crash

end steps

/-! ### Settled keys -/

/-- Nothing of the key is on its way, and nothing of it was given up. -/
def System.Settled (cfg : Config) (s : System) (k : MetricKey) : Prop :=
  s.slots.lookup k = none ∧ (∀ r ∈ s.pending ++ s.unwritten, r.it.key ≠ k) ∧
    ∀ p ∈ s.dropped, metricKey cfg p.record ≠ k

instance (cfg : Config) (s : System) (k : MetricKey) : Decidable (s.Settled cfg k) := by
  unfold System.Settled; infer_instance

section settled
variable {cfg : Config} {s : System} {k : MetricKey}

theorem RowOf.keyed (h : RowOf cfg r) :
    ∀ p ∈ r.points, metricKey cfg p.record = r.it.key := by
  obtain ⟨k, sl, hr, hf⟩ := h
  rw [hr]
  exact hf.keyed

/-- All points of a settled key are behind its stored row. -/
theorem Inv.settled (h : Inv cfg s) (hs : s.Settled cfg k) (hp : p ∈ s.points)
    (hk : metricKey cfg p.record = k) : ∃ e, s.table.lookup k = some e ∧ p ∈ e.points := by
  obtain ⟨hslot, hrows, hdrop⟩ := hs
  rw [← Multiset.mem_coe, h.accounted, System.accounts] at hp
  simp only [Multiset.mem_add, Multiset.mem_coe, mem_total, mem_bag] at hp
  rcases hp with (((⟨j, m, hl, hm⟩ | ⟨r, hr, hm⟩) | ⟨r, hr, hm⟩) | ⟨j, e, hl, he⟩) | hd
  · have hj := (h.slots j m hl).keyed p hm
    rw [hk] at hj
    rw [← hj, hslot] at hl
    cases hl
  · have hj := (h.pending r hr).keyed p hm
    exact absurd (hj.symm.trans hk) (hrows r (mem_append_left _ hr))
  · have hj := (h.unwritten r hr).keyed p hm
    exact absurd (hj.symm.trans hk) (hrows r (mem_append_right _ hr))
  · have hj := (h.table j e hl).keyed p he
    rw [hk] at hj
    subst hj
    exact ⟨e, hl, he⟩
  · exact absurd hk (hdrop p hd)

theorem Inv.stored_points (h : Inv cfg s) (hs : s.Settled cfg k) {e : Made MetricRollup}
    (he : s.table.lookup k = some e) : byArrival e.points = ofKey cfg k s.points := by
  have hle : (e.points : Multiset Point) ≤ s.points := by
    rw [h.accounted, System.accounts, ← total_erase he]
    exact (Multiset.le_add_left _ _).trans ((Multiset.le_add_left _ _).trans (Multiset.le_add_right _ _))
  have hnodup : (s.points.map Point.seq).Nodup := h.numbered ▸ nodup_range
  have hpnodup : s.points.Nodup := .of_map _ hnodup
  have hperm : e.points.Perm (ofKey cfg k s.points) := by
    refine (perm_ext_iff_of_nodup ?_ (hpnodup.filter _)).mpr fun p => ?_
    · exact Multiset.coe_nodup.mp (Multiset.nodup_of_le hle (Multiset.coe_nodup.mpr hpnodup))
    · simp only [mem_filter, decide_eq_true_eq]
      constructor
      · intro hp
        exact ⟨Multiset.mem_coe.mp (Multiset.mem_of_le hle hp), (h.table k e he).keyed p hp⟩
      · rintro ⟨hp, hk⟩
        obtain ⟨e', he', hpe⟩ := h.settled hs hp hk
        rw [he, Option.some.injEq] at he'
        exact he' ▸ hpe
  have hordered : s.points.Pairwise fun p q => p.seq ≤ q.seq := by
    have := pairwise_lt_range (n := s.points.length)
    rw [← h.numbered, pairwise_map] at this
    exact this.imp fun hpq => le_of_lt hpq
  refine List.Perm.eq_of_pairwise (fun p q hp hq hpq hqp => ?_) (byArrival_ordered _)
    (hordered.filter _) ((byArrival_perm _).trans hperm)
  refine inj_on_of_nodup_map hnodup ?_ (mem_of_mem_filter hq) (le_antisymm hpq hqp)
  exact mem_of_mem_filter (hperm.mem_iff.mp ((byArrival_perm _).mem_iff.mp hp))

end settled

/-- Five-minute buckets, and a codec that reads no JSON. -/
def fiveMinutes : Config where
  interval := 300 * 10 ^ 9
  codec := ⟨fun _ => none, fun _ => "", fun _ => none, fun _ => none⟩

/-- A point of one cumulative histogram: `value` is the running sum, `count` the running count. -/
def snapshot (nano : ℕ) (value : ℚ) (count : ℕ) : MetricRecord :=
  { name := "latency", type := .histogram, temporality := .cumulative, timeUnixNano := nano, value,
    count }

/-- What the process holds when it stops after the points: one row. -/
def heldRow (cfg : Config) (ps : List Point) : List (Made MetricRollup) :=
  rollups cfg.codec (ps.foldl (addMetric cfg) ∅)

/-- A restart between two points of a bucket. -/
def restartBetween (first second : MetricRecord) : List Action :=
  [.add first, .flushAll (heldRow fiveMinutes [⟨0, first⟩]), .write true, .write true,
    .add second, .flushAll (heldRow fiveMinutes [⟨1, second⟩]), .write true, .write true]

/-- Where it ends. -/
def afterRestart (first second : MetricRecord) : System :=
  (run (step fiveMinutes) {} (restartBetween first second)).getD {}

theorem run_restartBetween {first second : MetricRecord}
    (h : (run (step fiveMinutes) {} (restartBetween first second)).isSome = true) :
    run (step fiveMinutes) {} (restartBetween first second) = some (afterRestart first second) :=
  (Option.getD_of_ne_none (Option.isSome_iff_ne_none.mp h) _).symm

/-- A point of a gauge. -/
def reading (nano : ℕ) (value : ℚ) : MetricRecord :=
  { name := "queue.depth", type := .gauge, timeUnixNano := nano, value }

end Spanbarn.Metrics
