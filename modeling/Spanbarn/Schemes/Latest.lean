import Mathlib.Data.List.Basic
import Mathlib.Data.List.Induction
import Mathlib.Data.Nat.Basic
import Mathlib.Order.Lattice

/-! The latest entry of a log.

    Entries carry a stamp and arrive one by one. A reader that keeps one entry and replaces it by
    every arrival whose stamp is not smaller ends up with the entry of the greatest stamp, the last
    arrived of those that share it:

        stamp    3   7   5   7   6
        kept     3   7   7   7'  7'

    In a log ordered by arrival that is the greatest entry by stamp and then arrival, which no longer
    depends on the order the entries are listed in. -/

namespace Spanbarn.Schemes

variable {α T : Type*} [LinearOrder T] (stamp : α → T) (seq : α → ℕ)

/-- Keep the arrival unless the entry held has a greater stamp. -/
def later (held : Option α) (x : α) : Option α :=
  match held with
  | none => some x
  | some h => if stamp h ≤ stamp x then some x else some h

/-- The entry such a reader ends with. -/
def latest (l : List α) : Option α := l.foldl (later stamp) none

/-- Stamped before, or at the same time and arrived no later. -/
def NoLater (x y : α) : Prop := stamp x < stamp y ∨ stamp x = stamp y ∧ seq x ≤ seq y

instance (x y : α) : Decidable (NoLater stamp seq x y) := by
  unfold NoLater; infer_instance

/-- The latest entry of a log, by stamp and then arrival. -/
structure IsLatest (l : List α) (x : α) : Prop where
  mem : x ∈ l
  all : ∀ y ∈ l, NoLater stamp seq y x

variable {stamp seq} {l l₁ l₂ : List α} {x y z : α}

theorem latest_snoc (l : List α) (x : α) :
    latest stamp (l ++ [x]) = later stamp (latest stamp l) x := by
  rw [latest, latest, List.foldl_append, List.foldl_cons, List.foldl_nil]

variable (stamp) in
theorem exists_later (held : Option α) (x : α) : ∃ y, later stamp held x = some y := by
  cases held with
  | none => exact ⟨x, rfl⟩
  | some h =>
    by_cases hx : stamp h ≤ stamp x
    · exact ⟨x, if_pos hx⟩
    · exact ⟨h, if_neg hx⟩

theorem eq_nil_of_latest (h : latest stamp l = none) : l = [] := by
  cases l using List.reverseRecOn with
  | nil => rfl
  | append_singleton l x =>
    obtain ⟨y, hy⟩ := exists_later stamp (latest stamp l) x
    rw [latest_snoc, hy] at h
    cases h

theorem NoLater.refl (x : α) : NoLater stamp seq x x := .inr ⟨rfl, le_rfl⟩

theorem NoLater.trans (h : NoLater stamp seq x y) (h' : NoLater stamp seq y z) :
    NoLater stamp seq x z := by
  rcases h with h | ⟨h, hs⟩
  · rcases h' with h' | ⟨h', -⟩
    · exact .inl (h.trans h')
    · exact .inl (h' ▸ h)
  · rcases h' with h' | ⟨h', hs'⟩
    · exact .inl (h ▸ h')
    · exact .inr ⟨h.trans h', hs.trans hs'⟩

/-- Two entries none of which is later arrived at the same time. -/
theorem NoLater.seq_eq (h : NoLater stamp seq x y) (h' : NoLater stamp seq y x) :
    seq x = seq y := by
  rcases h with h | ⟨h, hs⟩
  · rcases h' with h' | ⟨h', -⟩
    · exact absurd h' (lt_asymm h)
    · exact absurd h (by rw [h']; exact lt_irrefl _)
  · rcases h' with h' | ⟨-, hs'⟩
    · exact absurd h' (by rw [h]; exact lt_irrefl _)
    · exact le_antisymm hs hs'

/-- In the order of arrival the reader ends with the latest entry. -/
theorem isLatest_latest : ∀ {l : List α} {x : α}, l.Pairwise (fun a b => seq a ≤ seq b) →
    latest stamp l = some x → IsLatest stamp seq l x := by
  intro l
  induction l using List.reverseRecOn with
  | nil =>
    intro x _ h
    cases h
  | append_singleton l z ih =>
    intro x hs h
    obtain ⟨hl, -, hz⟩ := List.pairwise_append.mp hs
    rw [latest_snoc] at h
    cases hk : latest stamp l with
    | none =>
      obtain rfl := eq_nil_of_latest hk
      obtain rfl : z = x := by simpa [later, hk] using h
      exact ⟨by simp, by simp [NoLater.refl]⟩
    | some v =>
      have hv := ih hl hk
      simp only [later, hk] at h
      split at h
      · rename_i hle
        obtain rfl : z = x := Option.some.inj h
        refine ⟨by simp, fun y hy => ?_⟩
        rcases List.mem_append.mp hy with hy | hy
        · -- every entry before is no later than the one held, which arrived before `z`
          refine (hv.all y hy).trans ?_
          rcases hle.lt_or_eq with hlt | heq
          · exact .inl hlt
          · exact .inr ⟨heq, hz v hv.mem z (by simp)⟩
        · obtain rfl := List.mem_singleton.mp hy
          exact .refl _
      · rename_i hgt
        obtain rfl : v = x := Option.some.inj h
        refine ⟨List.mem_append_left _ hv.mem, fun y hy => ?_⟩
        rcases List.mem_append.mp hy with hy | hy
        · exact hv.all y hy
        · obtain rfl := List.mem_singleton.mp hy
          exact .inl (not_le.mp hgt)

/-- A log whose entries arrived one at a time has one latest entry. -/
theorem IsLatest.unique (h : IsLatest stamp seq l x) (h' : IsLatest stamp seq l y)
    (hinj : ∀ a ∈ l, ∀ b ∈ l, seq a = seq b → a = b) : x = y :=
  hinj x h.mem y h'.mem ((h'.all x h.mem).seq_eq (h.all y h'.mem))

theorem IsLatest.of_subset (h : IsLatest stamp seq l₁ x) (hx : x ∈ l₂) (hsub : l₂ ⊆ l₁) :
    IsLatest stamp seq l₂ x :=
  ⟨hx, fun y hy => h.all y (hsub hy)⟩

/-- The latest entry of the second log is the latest of both, if every entry of the first is no
    later than some entry of the second. -/
theorem IsLatest.append (h : IsLatest stamp seq l₂ x)
    (hl : ∀ y ∈ l₁, ∃ z ∈ l₂, NoLater stamp seq y z) : IsLatest stamp seq (l₁ ++ l₂) x := by
  refine ⟨List.mem_append_right _ h.mem, fun y hy => ?_⟩
  rcases List.mem_append.mp hy with hy | hy
  · obtain ⟨z, hz, hyz⟩ := hl y hy
    exact hyz.trans (h.all z hz)
  · exact h.all y hy

end Spanbarn.Schemes
