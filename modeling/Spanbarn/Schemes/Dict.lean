import Mathlib.Algebra.BigOperators.Group.List.Basic
import Mathlib.Algebra.Order.BigOperators.Group.List
import Mathlib.Algebra.Order.Group.Multiset
import Mathlib.Algebra.Order.Group.Nat
import Mathlib.Data.List.AList

/-! Finite maps, and sums over their values.

    A map is an association list whose keys are distinct, so it has a size, it can be walked, and a
    quantity can be summed over its values:

        total f (m.insert k v) + f (old value at k) = f v + total f m
        total f (m.erase k)    + f (old value at k) = total f m      -/

namespace Spanbarn.Schemes
open List

variable {K V M : Type*}

/-- A finite map with values of one type. -/
abbrev Dict (K V : Type*) := AList fun _ : K => V

/-- The values, in the order of the entries. -/
def values (d : Dict K V) : List V := d.entries.map Sigma.snd

/-- Sum of `f` over the values. -/
def total [AddCommMonoid M] (f : V → M) (d : Dict K V) : M := ((values d).map f).sum

/-- The entries whose key passes. -/
def keep (p : K → Bool) (d : Dict K V) : Dict K V :=
  ⟨d.entries.filter fun e => p e.1, d.nodupKeys.sublist filter_sublist⟩

section lookup
variable [DecidableEq K] {d : Dict K V} {k k' : K} {v v' : V}

theorem mem_values : v ∈ values d ↔ ∃ k, d.lookup k = some v := by
  constructor
  · intro h
    obtain ⟨⟨k, w⟩, hm, rfl⟩ := mem_map.mp h
    exact ⟨k, AList.mem_lookup_iff.mpr hm⟩
  · rintro ⟨k, h⟩
    exact mem_map.mpr ⟨⟨k, v⟩, AList.mem_lookup_iff.mp h, rfl⟩

theorem lookup_of_erase (h : (d.erase k).lookup k' = some v) : k' ≠ k ∧ d.lookup k' = some v := by
  have hne : k' ≠ k := by
    rintro rfl
    rw [AList.lookup_erase] at h
    cases h
  exact ⟨hne, by rwa [AList.lookup_erase_ne hne] at h⟩

theorem lookup_of_insert (h : (d.insert k v).lookup k' = some v') :
    k' = k ∧ v' = v ∨ k' ≠ k ∧ d.lookup k' = some v' := by
  by_cases hk : k' = k
  · subst hk
    rw [AList.lookup_insert, Option.some.injEq] at h
    exact .inl ⟨rfl, h.symm⟩
  · rw [AList.lookup_insert_ne hk] at h
    exact .inr ⟨hk, h⟩

theorem eq_empty (h : ∀ k, d.lookup k = none) : d = ∅ := by
  refine AList.ext ?_
  cases he : d.entries with
  | nil => rfl
  | cons e l =>
    have hm : d.lookup e.1 = some e.2 := AList.mem_lookup_iff.mpr (by rw [he]; simp)
    rw [h] at hm
    cases hm

theorem lookup_keep (p : K → Bool) (d : Dict K V) (k : K) :
    (keep p d).lookup k = if p k then d.lookup k else none := by
  refine Option.ext fun v => ?_
  have hk : (keep p d).lookup k = some v ↔ d.lookup k = some v ∧ p k = true := by
    rw [← Option.mem_def, ← Option.mem_def, AList.mem_lookup_iff, AList.mem_lookup_iff]
    exact mem_filter
  rw [hk]
  split
  · rename_i hp
    exact and_iff_left hp
  · rename_i hp
    simp [hp]

/-- What a row of inserts leaves under a key is the value of one of them, or was there before. -/
theorem lookup_inserts {A : Type*} {key : A → K} {val : A → V} : ∀ {l : List A} {d : Dict K V},
    (l.foldl (fun d r => d.insert (key r) (val r)) d).lookup k = some v →
      (∃ r ∈ l, key r = k ∧ val r = v) ∨ d.lookup k = some v
  | [], _, h => .inr h
  | r :: l, d, h => by
    rcases lookup_inserts (l := l) h with ⟨q, hq, hk⟩ | h
    · exact .inl ⟨q, mem_cons_of_mem _ hq, hk⟩
    · rcases lookup_of_insert h with ⟨rfl, rfl⟩ | ⟨-, h⟩
      · exact .inl ⟨r, mem_cons_self, rfl, rfl⟩
      · exact .inr h

theorem lookup_inserts_none {A : Type*} {key : A → K} {val : A → V} : ∀ {l : List A} {d : Dict K V},
    (l.foldl (fun d r => d.insert (key r) (val r)) d).lookup k = none →
      (∀ r ∈ l, key r ≠ k) ∧ d.lookup k = none
  | [], _, h => ⟨forall_mem_nil _, h⟩
  | r :: l, d, h => by
    obtain ⟨hl, hr⟩ := lookup_inserts_none (l := l) h
    by_cases hk : k = key r
    · subst hk
      rw [AList.lookup_insert] at hr
      cases hr
    · rw [AList.lookup_insert_ne hk] at hr
      exact ⟨forall_mem_cons.mpr ⟨Ne.symm hk, hl⟩, hr⟩

end lookup

@[simp] theorem total_empty [AddCommMonoid M] (f : V → M) : total f (∅ : Dict K V) = 0 := rfl

theorem total_keep [AddCommMonoid M] (p : K → Bool) (f : V → M) (d : Dict K V) :
    total f (keep p d) + total f (keep (fun k => !p k) d) = total f d := by
  have h := (filter_append_perm (fun e : Sigma fun _ : K => V => p e.1) d.entries).map
    (f ∘ Sigma.snd)
  simp only [total, values, keep, map_map, ← sum_append, ← map_append]
  exact h.sum_eq

section total
variable [AddCommMonoid M] [DecidableEq K] {f : V → M} {d : Dict K V} {k : K} {v w : V}

theorem total_eq_zero (h : ∀ k v, d.lookup k = some v → f v = 0) : total f d = 0 := by
  refine sum_eq_zero fun x hx => ?_
  obtain ⟨v, hv, rfl⟩ := mem_map.mp hx
  obtain ⟨k, hk⟩ := mem_values.mp hv
  exact h k v hk

theorem total_le_total {f g : V → ℕ} {d : Dict K V} (h : ∀ k v, d.lookup k = some v → f v ≤ g v) :
    total f d ≤ total g d := by
  refine sum_le_sum fun v hv => ?_
  obtain ⟨k, hk⟩ := mem_values.mp hv
  exact h k v hk

theorem mem_total {α : Type*} {f : V → Multiset α} {d : Dict K V} {a : α} :
    a ∈ total f d ↔ ∃ k v, d.lookup k = some v ∧ a ∈ f v := by
  have hsum : ∀ l : List V, a ∈ (l.map f).sum ↔ ∃ v ∈ l, a ∈ f v := by
    intro l
    induction l with
    | nil => simp
    | cons w l ih => simp [ih]
  rw [total, hsum]
  constructor
  · rintro ⟨v, hv, ha⟩
    obtain ⟨k, hk⟩ := mem_values.mp hv
    exact ⟨k, v, hk, ha⟩
  · rintro ⟨k, v, hk, ha⟩
    exact ⟨v, mem_values.mpr ⟨k, hk⟩, ha⟩

theorem total_erase_of_none (h : d.lookup k = none) : total f (d.erase k) = total f d := by
  have he : (d.erase k).entries = d.entries :=
    kerase_of_notMem_keys (AList.mem_keys.not.mp (AList.lookup_eq_none.mp h))
  rw [total, total, values, values, he]

theorem total_erase (h : d.lookup k = some v) : total f (d.erase k) + f v = total f d := by
  have hmem : k ∈ d.keys := AList.mem_keys.mp (AList.lookup_isSome.mp (by rw [h]; rfl))
  obtain ⟨w, l₁, l₂, -, hl, he⟩ := exists_of_kerase hmem
  have hw : d.lookup k = some w := AList.mem_lookup_iff.mpr (by rw [hl]; simp)
  obtain rfl : w = v := Option.some.inj (hw.symm.trans h)
  have hd : (d.erase k).entries = l₁ ++ l₂ := he
  simp only [total, values, hd, hl, map_append, map_cons, sum_append,
    sum_cons]
  ac_rfl

/-- The entry of one key, summed. -/
theorem total_keep_one (f : V → M) (d : Dict K V) (k : K) :
    total f (keep (fun k' => decide (k' = k)) d) = (d.lookup k).elim 0 f := by
  have hk := lookup_keep (fun k' => decide (k' = k)) d
  cases h : d.lookup k with
  | none =>
    refine total_eq_zero fun k' v hv => ?_
    rw [hk] at hv
    split at hv
    · rename_i he
      rw [of_decide_eq_true he, h] at hv
      cases hv
    · cases hv
  | some v =>
    have hv : (keep (fun k' => decide (k' = k)) d).lookup k = some v := by rw [hk]; simp [h]
    rw [← total_erase hv, total_eq_zero, zero_add]
    · rfl
    · intro k' w hw
      obtain ⟨hne, hl⟩ := lookup_of_erase hw
      rw [hk] at hl
      simp [hne] at hl

theorem total_insert_of_none (h : d.lookup k = none) :
    total f (d.insert k v) = f v + total f d := by
  rw [← total_erase_of_none h]
  rfl

theorem total_insert (h : d.lookup k = some w) :
    total f (d.insert k v) + f w = f v + total f d := by
  rw [← total_erase h, ← add_assoc]
  rfl

/-- An insert over a default that counts for nothing. -/
theorem total_insert_getD (hw : f w = 0) :
    total f (d.insert k v) + f ((d.lookup k).getD w) = f v + total f d := by
  cases h : d.lookup k with
  | none => rw [Option.getD_none, hw, add_zero, total_insert_of_none h]
  | some u => rw [Option.getD_some, total_insert h]

end total

end Spanbarn.Schemes
