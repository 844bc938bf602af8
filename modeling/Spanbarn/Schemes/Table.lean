import Mathlib.Data.List.Nodup
import Mathlib.Data.List.Sort
import Mathlib.Data.Nat.Basic

/-! A table with a unique key.

    Rows are a list in which no key occurs twice. `put` is an insert with a conflict clause: the row of
    the key, if there is one, is merged with the new row in place. Two tables that agree on the rows of
    some keys agree on them after the same `put`, and answer a sorted query over such keys alike. -/

namespace Spanbarn.Schemes
open List

variable {α κ σ : Type*}

/-- No key occurs twice. -/
def Keyed (key : α → κ) (rows : List α) : Prop := (rows.map key).Nodup

section keyed
variable {key : α → κ} {rows : List α}

theorem Keyed.eq_of_key (h : Keyed key rows) {x y : α} (hx : x ∈ rows) (hy : y ∈ rows)
    (hxy : key x = key y) : x = y :=
  inj_on_of_nodup_map h hx hy hxy

theorem Keyed.nodup (h : Keyed key rows) : rows.Nodup := .of_map _ h

theorem Keyed.filter (h : Keyed key rows) (p : α → Bool) : Keyed key (rows.filter p) :=
  h.sublist (filter_sublist.map _)

end keyed

section put
variable [DecidableEq κ]

/-- The row of a key. -/
def rowAt (key : α → κ) (k : κ) : List α → Option α
  | [] => none
  | q :: rest => if key q = k then some q else rowAt key k rest

/-- Insert a row, or merge it into the row of its key. -/
def put (key : α → κ) (merge : α → α → α) (r : α) : List α → List α
  | [] => [r]
  | q :: rest => if key q = key r then merge q r :: rest else q :: put key merge r rest

/-- What `put` leaves under the key of the row. -/
def putRow (key : α → κ) (merge : α → α → α) (r : α) (rows : List α) : α :=
  (rowAt key (key r) rows).elim r fun q => merge q r

variable {key : α → κ} {merge : α → α → α}

theorem mem_of_rowAt {k : κ} {q : α} : ∀ {rows : List α}, rowAt key k rows = some q →
    q ∈ rows ∧ key q = k
  | p :: rest, h => by
    by_cases hp : key p = k
    · rw [rowAt, if_pos hp, Option.some.injEq] at h
      exact h ▸ ⟨mem_cons_self, hp⟩
    · rw [rowAt, if_neg hp] at h
      obtain ⟨hm, hk⟩ := mem_of_rowAt h
      exact ⟨mem_cons_of_mem _ hm, hk⟩

theorem rowAt_of_mem {q : α} : ∀ {rows : List α}, Keyed key rows → q ∈ rows →
    rowAt key (key q) rows = some q
  | p :: rest, h, hq => by
    obtain ⟨hnot, hrest⟩ := nodup_cons.mp h
    rcases mem_cons.mp hq with rfl | hq
    · rw [rowAt, if_pos rfl]
    · have hp : key p ≠ key q := fun he => hnot (he ▸ mem_map_of_mem hq)
      rw [rowAt, if_neg hp]
      exact rowAt_of_mem hrest hq

theorem Keyed.rowAt_eq {rows : List α} (h : Keyed key rows) {k : κ} {q : α} :
    rowAt key k rows = some q ↔ q ∈ rows ∧ key q = k := by
  constructor
  · exact mem_of_rowAt
  · rintro ⟨hq, rfl⟩
    exact rowAt_of_mem h hq

theorem mem_put {r x : α} : ∀ {rows : List α}, Keyed key rows →
    (x ∈ put key merge r rows ↔ x = putRow key merge r rows ∨ x ∈ rows ∧ key x ≠ key r)
  | [], _ => by simp [put, putRow, rowAt]
  | q :: rest, h => by
    obtain ⟨hnot, hrest⟩ := nodup_cons.mp h
    by_cases hq : key q = key r
    · have hx : ∀ y ∈ rest, key y ≠ key r := by
        intro y hy he
        exact hnot (hq ▸ he ▸ mem_map_of_mem hy)
      have hrow : putRow key merge r (q :: rest) = merge q r := by
        rw [putRow, rowAt, if_pos hq, Option.elim]
      rw [put, if_pos hq, hrow, mem_cons, mem_cons]
      constructor
      · rintro (rfl | hm)
        · exact .inl rfl
        · exact .inr ⟨.inr hm, hx x hm⟩
      · rintro (rfl | ⟨rfl | hm, hne⟩)
        · exact .inl rfl
        · exact absurd hq hne
        · exact .inr hm
    · have hrow : putRow key merge r (q :: rest) = putRow key merge r rest := by
        rw [putRow, putRow, rowAt, if_neg hq]
      rw [put, if_neg hq, hrow, mem_cons, mem_cons, mem_put hrest]
      constructor
      · rintro (rfl | rfl | ⟨hm, hne⟩)
        · exact .inr ⟨.inl rfl, hq⟩
        · exact .inl rfl
        · exact .inr ⟨.inr hm, hne⟩
      · rintro (rfl | ⟨rfl | hm, hne⟩)
        · exact .inr (.inl rfl)
        · exact .inl rfl
        · exact .inr (.inr ⟨hm, hne⟩)

variable (hmerge : ∀ q r, key q = key r → key (merge q r) = key r)
include hmerge

theorem key_putRow (r : α) (rows : List α) : key (putRow key merge r rows) = key r := by
  unfold putRow
  cases hq : rowAt key (key r) rows with
  | none => rfl
  | some q => exact hmerge q r (mem_of_rowAt hq).2

theorem map_key_put (r : α) : ∀ rows : List α,
    (put key merge r rows).map key =
      if key r ∈ rows.map key then rows.map key else rows.map key ++ [key r]
  | [] => rfl
  | q :: rest => by
    by_cases hq : key q = key r
    · simp [put, hq, hmerge q r hq]
    · have hne : key r ≠ key q := Ne.symm hq
      by_cases hk : key r ∈ rest.map key
      · simp only [put, if_neg hq, map_cons, map_key_put r rest, if_pos hk, mem_cons, hne,
          false_or]
      · simp only [put, if_neg hq, map_cons, map_key_put r rest, if_neg hk, mem_cons, hne,
          false_or, cons_append]

theorem rowAt_put (k : κ) (r : α) : ∀ rows : List α,
    rowAt key k (put key merge r rows) =
      if key r = k then some (putRow key merge r rows) else rowAt key k rows
  | [] => rfl
  | q :: rest => by
    by_cases hq : key q = key r
    · have hm := hmerge q r hq
      by_cases hk : key r = k
      · simp [put, hq, rowAt, hm, hk, putRow, Option.elim]
      · simp [put, hq, rowAt, hm, hk]
    · by_cases hk : key r = k
      · subst hk
        simp [put, hq, rowAt, rowAt_put (key r) r rest, putRow]
      · simp [put, hq, rowAt, rowAt_put k r rest, hk]

theorem keyed_put {rows : List α} (h : Keyed key rows) (r : α) : Keyed key (put key merge r rows) := by
  rw [Keyed, map_key_put hmerge]
  split
  · exact h
  · rename_i hk
    exact h.append (nodup_singleton _) (disjoint_singleton.mpr hk)

/-- A row stays as long as its key is not put. -/
theorem mem_puts_of_mem {x : α} : ∀ {rs rows : List α}, Keyed key rows → x ∈ rows →
    (∀ r ∈ rs, key x ≠ key r) → x ∈ rs.foldl (fun t r => put key merge r t) rows
  | [], _, _, hx, _ => hx
  | r :: rs, rows, h, hx, hne => by
    rw [foldl_cons]
    refine mem_puts_of_mem (keyed_put hmerge h r) ?_ fun q hq => hne q (mem_cons_of_mem _ hq)
    exact (mem_put h).mpr (.inr ⟨hx, hne r mem_cons_self⟩)

/-- What a query on keys selects stays as long as nothing it selects is put. -/
theorem filter_puts {p : α → Bool} (hp : ∀ x y, key x = key y → p x = p y) : ∀ {rs rows : List α},
    (∀ r ∈ rs, p r = false) → (rs.foldl (fun t r => put key merge r t) rows).filter p = rows.filter p
  | [], _, _ => rfl
  | r :: rs, rows, hne => by
    obtain ⟨hr, hrest⟩ := forall_mem_cons.mp hne
    rw [foldl_cons, filter_puts hp hrest]
    induction rows with
    | nil => simp [put, hr]
    | cons q rows ih =>
      by_cases hq : key q = key r
      · have hold : p q = false := (hp _ _ hq).trans hr
        have hnew : p (merge q r) = false := (hp _ _ (hmerge q r hq)).trans hr
        simp [put, hq, hold, hnew]
      · simp [put, if_neg hq, filter_cons, ih]

/-- Of rows with different keys each one is there after all are put. -/
theorem mem_puts {r : α} : ∀ {rs rows : List α}, Keyed key rows → Keyed key rs → r ∈ rs →
    ∃ t, putRow key merge r t ∈ rs.foldl (fun t r => put key merge r t) rows
  | q :: rs, rows, h, hrs, hr => by
    obtain ⟨hnot, hrest⟩ := nodup_cons.mp hrs
    rw [foldl_cons]
    rcases mem_cons.mp hr with rfl | hr
    · refine ⟨rows, mem_puts_of_mem hmerge (keyed_put hmerge h r) ((mem_put h).mpr (.inl rfl)) ?_⟩
      intro p hp
      rw [key_putRow hmerge]
      exact fun he => hnot (he ▸ mem_map_of_mem hp)
    · exact mem_puts (keyed_put hmerge h q) hrest hr

omit hmerge

theorem putRow_replace (r : α) (rows : List α) : putRow key (fun _ r => r) r rows = r := by
  unfold putRow
  cases rowAt key (key r) rows with
  | none => rfl
  | some q => rfl

/-- After `INSERT OR REPLACE` of rows a row is one of them, or an old one of another key. -/
theorem mem_replaces {x : α} : ∀ {rs rows : List α}, Keyed key rows →
    x ∈ rs.foldl (fun t r => put key (fun _ r => r) r t) rows →
      x ∈ rs ∨ x ∈ rows ∧ ∀ r ∈ rs, key x ≠ key r
  | [], _, _, hx => .inr ⟨hx, forall_mem_nil _⟩
  | r :: rs, rows, h, hx => by
    rcases mem_replaces (keyed_put (fun _ _ _ => rfl) h r) hx with hx | ⟨hx, hne⟩
    · exact .inl (mem_cons_of_mem _ hx)
    · rcases (mem_put h).mp hx with rfl | ⟨hx, hr⟩
      · exact .inl (mem_cons.mpr (.inl (putRow_replace r rows)))
      · exact .inr ⟨hx, forall_mem_cons.mpr ⟨hr, hne⟩⟩

/-- A row is there after a replace that has it, or leaves it, and has no other row of its key. -/
theorem mem_replaces_of_mem {x : α} : ∀ {rs rows : List α}, Keyed key rows → x ∈ rs ∨ x ∈ rows →
    (∀ r ∈ rs, key r = key x → r = x) → x ∈ rs.foldl (fun t r => put key (fun _ r => r) r t) rows
  | [], _, _, hx, _ => hx.resolve_left not_mem_nil
  | r :: rs, rows, h, hx, hone => by
    obtain ⟨hr, hrest⟩ := forall_mem_cons.mp hone
    have hput : x = r → x ∈ put key (fun _ r => r) r rows := fun he =>
      (mem_put h).mpr (.inl (he.trans (putRow_replace r rows).symm))
    rw [foldl_cons]
    refine mem_replaces_of_mem (keyed_put (fun _ _ _ => rfl) h r) ?_ hrest
    rcases hx with hx | hx
    · rcases mem_cons.mp hx with he | hx
      · exact .inr (hput he)
      · exact .inl hx
    · by_cases hk : key r = key x
      · exact .inr (hput (hr hk).symm)
      · exact .inr ((mem_put h).mpr (.inr ⟨hx, Ne.symm hk⟩))

end put

/-! ### Sorted queries -/

section sort
variable [LinearOrder σ] (sortKey : α → σ)

/-- The rows in the order of their sort key. -/
def sortRows (rows : List α) : List α := rows.insertionSort fun a b => sortKey a ≤ sortKey b

theorem sortRows_perm (rows : List α) : (sortRows sortKey rows).Perm rows :=
  perm_insertionSort _ rows

theorem sortRows_sorted (rows : List α) :
    (sortRows sortKey rows).Pairwise fun a b => sortKey a ≤ sortKey b := by
  have : Std.Total fun a b : α => sortKey a ≤ sortKey b := ⟨fun _ _ => le_total _ _⟩
  have : IsTrans α fun a b => sortKey a ≤ sortKey b := ⟨fun _ _ _ => le_trans⟩
  exact pairwise_insertionSort _ rows

/-- Rows in sorted order are determined by which rows they are. -/
theorem eq_of_sorted {a b : List α} (hperm : a.Perm b)
    (ha : a.Pairwise fun x y => sortKey x ≤ sortKey y)
    (hb : b.Pairwise fun x y => sortKey x ≤ sortKey y)
    (hinj : ∀ x ∈ a, ∀ y ∈ a, sortKey x = sortKey y → x = y) : a = b := by
  refine List.Perm.eq_of_pairwise (fun x y hx hy hxy hyx => ?_) ha hb hperm
  exact hinj x hx y (hperm.mem_iff.mpr hy) (le_antisymm hxy hyx)

end sort

/-! ### The same query on two tables -/

section query
variable {key : α → κ} {rows rows' : List α} {q : α → Bool}

/-- A query has the same rows in tables that hold the same of what it selects. -/
theorem filter_perm (hk : Keyed key rows) (hk' : Keyed key rows')
    (h : ∀ x, q x = true → (x ∈ rows ↔ x ∈ rows')) : (rows.filter q).Perm (rows'.filter q) := by
  refine (perm_ext_iff_of_nodup (hk.nodup.filter _) (hk'.nodup.filter _)).mpr fun x => ?_
  rw [mem_filter, mem_filter]
  exact and_congr_left (h x)

/-- It has the same answer when its order tells the rows apart. -/
theorem query_eq [LinearOrder σ] (hk : Keyed key rows) (hk' : Keyed key rows')
    (h : ∀ x, q x = true → (x ∈ rows ↔ x ∈ rows')) {sortKey : α → σ}
    (hsort : ∀ x ∈ rows, ∀ y ∈ rows, q x = true → q y = true → sortKey x = sortKey y →
      key x = key y) :
    sortRows sortKey (rows.filter q) = sortRows sortKey (rows'.filter q) := by
  have hperm := sortRows_perm sortKey (rows.filter q)
  refine eq_of_sorted sortKey ?_ (sortRows_sorted _ _) (sortRows_sorted _ _) ?_
  · exact hperm.trans ((filter_perm hk hk' h).trans (sortRows_perm _ _).symm)
  · intro x hx y hy hxy
    obtain ⟨hx, hqx⟩ := mem_filter.mp (hperm.mem_iff.mp hx)
    obtain ⟨hy, hqy⟩ := mem_filter.mp (hperm.mem_iff.mp hy)
    exact hk.eq_of_key hx hy (hsort x hx y hy hqx hqy hxy)

end query

/-! ### A table and the same table with rows removed -/

/-- The first table may miss rows of the second, but of the keys in `P` it holds the same rows. -/
structure AgreeOn (key : α → κ) (P : κ → Prop) (rows rows' : List α) : Prop where
  same : ∀ x, P (key x) → (x ∈ rows ↔ x ∈ rows')
  keys : ∀ x ∈ rows, key x ∈ rows'.map key

namespace AgreeOn
variable {key : α → κ} {P Q : κ → Prop} {rows rows' : List α}

theorem refl (key : α → κ) (P : κ → Prop) (rows : List α) : AgreeOn key P rows rows :=
  ⟨fun _ _ => .rfl, fun _ hx => mem_map_of_mem hx⟩

theorem mono (h : AgreeOn key P rows rows') (hPQ : ∀ k, Q k → P k) : AgreeOn key Q rows rows' :=
  ⟨fun x hx => h.same x (hPQ _ hx), h.keys⟩

/-- Rows of other keys may go. -/
theorem remove (h : AgreeOn key P rows rows') {p : α → Bool}
    (hp : ∀ x ∈ rows, P (key x) → p x = true) : AgreeOn key P (rows.filter p) rows' := by
  refine ⟨fun x hx => ?_, fun x hx => h.keys x (mem_of_mem_filter hx)⟩
  rw [← h.same x hx, mem_filter]
  exact ⟨And.left, fun hm => ⟨hm, hp x hm hx⟩⟩

section put
variable [DecidableEq κ] {merge : α → α → α}
variable (hmerge : ∀ q r, key q = key r → key (merge q r) = key r)
include hmerge

/-- Tables that agree still do after the same `put`. -/
theorem after_put (h : AgreeOn key P rows rows') (hk : Keyed key rows) (hk' : Keyed key rows')
    (r : α) : AgreeOn key P (put key merge r rows) (put key merge r rows') := by
  refine ⟨fun x hx => ?_, fun x hx => ?_⟩
  · rw [mem_put hk, mem_put hk']
    by_cases hr : key x = key r
    · have hrow : rowAt key (key r) rows = rowAt key (key r) rows' := by
        refine Option.ext fun q => ?_
        rw [hk.rowAt_eq, hk'.rowAt_eq]
        refine and_congr_left fun hq => h.same q ?_
        rw [hq, ← hr]
        exact hx
      simp [putRow, hrow, hr]
    · have hne : ∀ rows, x ≠ putRow key merge r rows := by
        rintro rows rfl
        exact hr (key_putRow hmerge r rows)
      simp [hne, h.same x hx]
  · rw [map_key_put hmerge]
    rcases (mem_put hk).mp hx with rfl | ⟨hm, -⟩
    · rw [key_putRow hmerge]
      split
      · assumption
      · exact mem_append_right _ mem_cons_self
    · split
      · exact h.keys x hm
      · exact mem_append_left _ (h.keys x hm)

end put

end AgreeOn

/-! ### A table that loses rows -/

/-- The second table is the first without some rows, all of which may go. -/
def Removed (mayGo : α → Prop) (rows rows' : List α) : Prop :=
  ∃ keep : α → Bool, rows' = rows.filter keep ∧ ∀ x ∈ rows, keep x = false → mayGo x

namespace Removed
variable {mayGo : α → Prop} {rows rows' : List α}

theorem refl (mayGo : α → Prop) (rows : List α) : Removed mayGo rows rows :=
  ⟨fun _ => true, (filter_true rows).symm, fun _ _ h => absurd h (by simp)⟩

theorem subset (h : Removed mayGo rows rows') : ∀ x ∈ rows', x ∈ rows := by
  obtain ⟨keep, rfl, -⟩ := h
  exact fun x hx => (mem_filter.mp hx).1

/-- Further rows that may go, go. -/
theorem filter (h : Removed mayGo rows rows') {keep : α → Bool}
    (hk : ∀ x ∈ rows', keep x = false → mayGo x) : Removed mayGo rows (rows'.filter keep) := by
  obtain ⟨keep₀, rfl, hgo⟩ := h
  refine ⟨fun x => keep x && keep₀ x, filter_filter, fun x hx hxk => ?_⟩
  by_cases h₀ : keep₀ x = true
  · simp only [h₀, Bool.and_true] at hxk
    exact hk x (mem_filter.mpr ⟨hx, h₀⟩) hxk
  · exact hgo x hx (by simpa using h₀)

/-- What a query selects of rows that may not go stays. -/
theorem query_eq (h : Removed mayGo rows rows') {q : α → Bool} (hq : ∀ x, mayGo x → q x = false) :
    rows'.filter q = rows.filter q := by
  obtain ⟨keep, rfl, hgo⟩ := h
  rw [filter_filter]
  refine filter_congr fun x hx => ?_
  by_cases hk : keep x = true
  · rw [hk, Bool.and_true]
  · rw [hq x (hgo x hx (by simpa using hk)), Bool.false_and]

end Removed

end Spanbarn.Schemes
