import Mathlib.Tactic.Basic

/-! Two runs of a fallible computation.

    A view says what an observer sees of a result. Two runs look the same when both fail, or both succeed
    with results that look the same; steps that keep that compose. -/

namespace Spanbarn.Schemes

variable {E α β τ υ : Type}

/-- Both fail, or both succeed with results of the same view. -/
def Same (view : α → τ) : Except E α → Except E α → Prop
  | .ok a, .ok b => view a = view b
  | .error _, .error _ => True
  | _, _ => False

theorem Same.refl (view : α → τ) (x : Except E α) : Same view x x := by
  cases x with
  | error e => trivial
  | ok a => rfl

theorem Same.bind {view : α → τ} {view' : β → υ} {x y : Except E α} (h : Same view x y)
    {f g : α → Except E β} (hfg : ∀ a b, view a = view b → Same view' (f a) (g b)) :
    Same view' (x >>= f) (y >>= g) := by
  cases x with
  | error e =>
    cases y with
    | error e' => trivial
    | ok b => exact h.elim
  | ok a =>
    cases y with
    | error e' => exact h.elim
    | ok b => exact hfg a b h

/-- What looks the same and succeeds once succeeds twice. -/
theorem Same.ok {view : α → τ} {x y : Except E α} (h : Same view x y) {a : α} (hx : x = .ok a) :
    ∃ b, y = .ok b ∧ view b = view a := by
  subst hx
  cases y with
  | error e => exact h.elim
  | ok b => exact ⟨b, rfl, Eq.symm h⟩

theorem bind_ok {x : Except E α} {f : α → Except E β} {b : β} :
    (x >>= f) = .ok b ↔ ∃ a, x = .ok a ∧ f a = .ok b := by
  cases x <;> simp [bind, Except.bind]

theorem map_ok {x : Except E α} {f : α → β} {b : β} :
    x.map f = .ok b ↔ ∃ a, x = .ok a ∧ f a = b := by
  cases x <;> simp [Except.map]

end Spanbarn.Schemes
