import Mathlib.Algebra.BigOperators.Group.List.Basic
import Mathlib.Order.Defs.LinearOrder
import Spanbarn.Schemes.Table

/-! Sorted lists with one item per key.

    An item goes to its place in the order, or is mixed into the item of its key. When mixing is
    commutative and associative, what a list holds under a key is the mix of everything that went in
    under it, in any order and any grouping, and a sorted list is determined by what it holds:

        rowAt k (mixAll a b)  =  rowAt k a  ⊕  rowAt k b            -/

namespace Spanbarn.Schemes
open List

/-- How two items of one key become one. -/
structure Mix (α κ : Type*) where
  key : α → κ
  mix : α → α → α
  key_mix : ∀ {a b}, key a = key b → key (mix a b) = key a
  comm : ∀ {a b}, key a = key b → mix a b = mix b a
  assoc : ∀ {a b c}, key a = key b → key b = key c → mix (mix a b) c = mix a (mix b c)

variable {α κ : Type*}

variable {k : κ} {l a b : List α}

namespace Mix
variable (m : Mix α κ)

/-- The items of one key on two sides, mixed. -/
def join : Option α → Option α → Option α
  | none, b => b
  | some a, none => some a
  | some a, some b => some (m.mix a b)

variable {m}

theorem join_assoc_of_key {a b c : Option α} (ha : ∀ x ∈ a, m.key x = k) (hb : ∀ x ∈ b, m.key x = k)
    (hc : ∀ x ∈ c, m.key x = k) :
    m.join (m.join a b) c = m.join a (m.join b c) := by
  cases a with
  | none => rfl
  | some a =>
    cases b with
    | none => rfl
    | some b =>
      cases c with
      | none => rfl
      | some c =>
        have hab : m.key a = m.key b := (ha a rfl).trans (hb b rfl).symm
        exact congrArg some (m.assoc hab ((hb b rfl).trans (hc c rfl).symm))

theorem join_comm_of_key {a b : Option α} (ha : ∀ x ∈ a, m.key x = k) (hb : ∀ x ∈ b, m.key x = k) :
    m.join a b = m.join b a := by
  cases a with
  | none => cases b <;> rfl
  | some a =>
    cases b with
    | none => rfl
    | some b => exact congrArg some (m.comm ((ha a rfl).trans (hb b rfl).symm))

variable [LinearOrder κ] (m)

/-- Insert an item at its place, or mix it into the item of its key. -/
def insert (x : α) : List α → List α
  | [] => [x]
  | a :: l =>
    if m.key x < m.key a then x :: a :: l
    else if m.key x = m.key a then m.mix a x :: l
    else a :: insert x l

/-- All items of the second list go into the first. -/
def mixAll (a b : List α) : List α := b.foldl (fun l x => m.insert x l) a

/-- Keys ascend, so no key occurs twice. -/
def Ascending (l : List α) : Prop := l.Pairwise fun a b => m.key a < m.key b

variable {m}

theorem Ascending.keyed (h : m.Ascending l) : Keyed m.key l :=
  pairwise_map.mpr (h.imp fun hlt => ne_of_lt hlt)

theorem mem_insert {x y : α} : ∀ {l : List α}, y ∈ m.insert x l →
    y = x ∨ y ∈ l ∨ ∃ a ∈ l, m.key x = m.key a ∧ y = m.mix a x
  | [], h => .inl (mem_singleton.mp h)
  | a :: l, h => by
    rw [insert] at h
    split at h
    · rcases mem_cons.mp h with rfl | h
      · exact .inl rfl
      · exact .inr (.inl h)
    · split at h
      · rename_i hk
        rcases mem_cons.mp h with rfl | h
        · exact .inr (.inr ⟨a, mem_cons_self, hk, rfl⟩)
        · exact .inr (.inl (mem_cons_of_mem _ h))
      · rcases mem_cons.mp h with rfl | h
        · exact .inr (.inl mem_cons_self)
        · rcases mem_insert h with rfl | h | ⟨b, hb, hk, rfl⟩
          · exact .inl rfl
          · exact .inr (.inl (mem_cons_of_mem _ h))
          · exact .inr (.inr ⟨b, mem_cons_of_mem _ hb, hk, rfl⟩)

/-- A lower bound on the keys of a list and of an item holds of the list with the item. -/
theorem lt_key_of_mem_insert {x y : α} (hx : k < m.key x) (hl : ∀ a ∈ l, k < m.key a)
    (hy : y ∈ m.insert x l) : k < m.key y := by
  rcases mem_insert hy with rfl | hy | ⟨a, ha, hk, rfl⟩
  · exact hx
  · exact hl y hy
  · rw [m.key_mix hk.symm]
    exact hl a ha

theorem ascending_insert (x : α) : ∀ {l : List α}, m.Ascending l → m.Ascending (m.insert x l)
  | [], _ => pairwise_singleton _ _
  | a :: l, h => by
    obtain ⟨hhead, htail⟩ := pairwise_cons.mp h
    rw [insert]
    split
    · rename_i hlt
      refine pairwise_cons.mpr ⟨fun b hb => ?_, h⟩
      rcases mem_cons.mp hb with rfl | hb
      · exact hlt
      · exact hlt.trans (hhead b hb)
    · split
      · rename_i hk
        refine pairwise_cons.mpr ⟨fun b hb => ?_, htail⟩
        rw [m.key_mix hk.symm]
        exact hhead b hb
      · rename_i hlt hne
        refine pairwise_cons.mpr ⟨fun b hb => ?_, ascending_insert x htail⟩
        exact lt_key_of_mem_insert (lt_of_le_of_ne (not_lt.mp hlt) (Ne.symm hne)) hhead hb

theorem ascending_mixAll (ha : m.Ascending a) (b : List α) :
    m.Ascending (m.mixAll a b) := by
  induction b generalizing a with
  | nil => exact ha
  | cons x b ih => exact ih (ascending_insert x ha)

/-! ### What a list holds under a key -/

theorem rowAt_eq_none (h : ∀ a ∈ l, k < m.key a) : rowAt m.key k l = none := by
  cases hr : rowAt m.key k l with
  | none => rfl
  | some q =>
    obtain ⟨hq, hk⟩ := mem_of_rowAt hr
    exact absurd (h q hq) (by rw [hk]; exact lt_irrefl k)

theorem rowAt_insert (x : α) (k : κ) : ∀ {l : List α}, m.Ascending l →
    rowAt m.key k (m.insert x l) =
      if m.key x = k then m.join (rowAt m.key k l) (some x) else rowAt m.key k l
  | [], _ => by
    simp [insert, rowAt, join]
  | a :: l, h => by
    obtain ⟨hhead, htail⟩ := pairwise_cons.mp h
    rw [insert]
    by_cases hlt : m.key x < m.key a
    · rw [if_pos hlt, rowAt]
      split
      · rename_i hk
        have hnone : rowAt m.key k (a :: l) = none := by
          refine rowAt_eq_none fun b hb => ?_
          rcases mem_cons.mp hb with rfl | hb
          · exact hk ▸ hlt
          · exact hk ▸ hlt.trans (hhead b hb)
        rw [hnone, join]
      · rfl
    · rw [if_neg hlt]
      by_cases heq : m.key x = m.key a
      · rw [if_pos heq, rowAt, rowAt, m.key_mix heq.symm, heq]
        split
        · rfl
        · rfl
      · rw [if_neg heq, rowAt, rowAt, rowAt_insert x k htail]
        by_cases ha : m.key a = k
        · rw [if_pos ha, if_pos ha, if_neg fun hx => heq (hx.trans ha.symm)]
        · rw [if_neg ha, if_neg ha]

theorem key_of_mem_rowAt : ∀ x ∈ rowAt m.key k l, m.key x = k :=
  fun _ hx => (mem_of_rowAt hx).2

theorem rowAt_mixAll (k : κ) (ha : m.Ascending a) (hb : m.Ascending b) :
    rowAt m.key k (m.mixAll a b) = m.join (rowAt m.key k a) (rowAt m.key k b) := by
  induction b generalizing a with
  | nil => cases h : rowAt m.key k a <;> simp [mixAll, rowAt, h, join]
  | cons x b ih =>
    obtain ⟨hhead, htail⟩ := pairwise_cons.mp hb
    rw [mixAll, foldl_cons]
    refine (ih (ascending_insert x ha) htail).trans ?_
    rw [rowAt_insert x k ha, rowAt]
    split
    · rename_i hk
      -- the keys after x are greater, so b holds nothing under k
      have hnone : rowAt m.key k b = none := rowAt_eq_none fun y hy => hk ▸ hhead y hy
      rw [hnone]
      cases rowAt m.key k a <;> rfl
    · rfl

/-- A sorted list is determined by what it holds under every key. -/
theorem ascending_ext (ha : m.Ascending a) (hb : m.Ascending b)
    (h : ∀ k, rowAt m.key k a = rowAt m.key k b) : a = b := by
  have hmem : ∀ x, x ∈ a ↔ x ∈ b := fun x => by
    have hx := ha.keyed.rowAt_eq (k := m.key x) (q := x)
    have hy := hb.keyed.rowAt_eq (k := m.key x) (q := x)
    rw [h] at hx
    exact ⟨fun hm => (hy.mp (hx.mpr ⟨hm, rfl⟩)).1, fun hm => (hx.mp (hy.mpr ⟨hm, rfl⟩)).1⟩
  have hperm : a.Perm b :=
    (perm_ext_iff_of_nodup ha.keyed.nodup hb.keyed.nodup).mpr hmem
  exact hperm.eq_of_pairwise (fun x y _ _ hxy hyx => absurd (hxy.trans hyx) (lt_irrefl _)) ha hb

theorem mixAll_comm (ha : m.Ascending a) (hb : m.Ascending b) :
    m.mixAll a b = m.mixAll b a := by
  refine ascending_ext (ascending_mixAll ha b) (ascending_mixAll hb a) fun k => ?_
  rw [rowAt_mixAll k ha hb, rowAt_mixAll k hb ha]
  exact join_comm_of_key key_of_mem_rowAt key_of_mem_rowAt

theorem mixAll_assoc {c : List α} (ha : m.Ascending a) (hb : m.Ascending b) (hc : m.Ascending c) :
    m.mixAll (m.mixAll a b) c = m.mixAll a (m.mixAll b c) := by
  have hab := ascending_mixAll ha b
  have hbc := ascending_mixAll hb c
  refine ascending_ext (ascending_mixAll hab c) (ascending_mixAll ha _) fun k => ?_
  rw [rowAt_mixAll k hab hc, rowAt_mixAll k ha hb, rowAt_mixAll k ha hbc, rowAt_mixAll k hb hc]
  exact join_assoc_of_key key_of_mem_rowAt key_of_mem_rowAt key_of_mem_rowAt

theorem nil_mixAll (ha : m.Ascending a) : m.mixAll [] a = a :=
  mixAll_comm List.Pairwise.nil ha

end Mix

end Spanbarn.Schemes
