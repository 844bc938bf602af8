import Mathlib.Logic.Function.Iterate

/-! Loops.

    A loop repeats its body on a state until the body exits with a result. It is run for a number of
    rounds; a measure that every round lowers says how many are enough, and then any greater number
    gives the same result. -/

namespace Spanbarn.Schemes

variable {S R : Type*}

/-- Run the body until it exits; `none` when the rounds were not enough. -/
def loop (body : S → S ⊕ R) : ℕ → S → Option R
  | 0, _ => none
  | rounds + 1, s =>
    match body s with
    | .inl s' => loop body rounds s'
    | .inr r => some r

variable {body : S → S ⊕ R} {I : S → Prop}

theorem loop_next {s s' : S} (h : body s = .inl s') (rounds : ℕ) :
    loop body (rounds + 1) s = loop body rounds s' := by rw [loop, h]

theorem loop_exit {s : S} {r : R} (h : body s = .inr r) (rounds : ℕ) :
    loop body (rounds + 1) s = some r := by rw [loop, h]

/-- TERMINATION RULE: where every round keeps `I` and lowers `μ`, the loop has one result, and more
    rounds than `μ` reach it. -/
theorem loop_total {μ : S → ℕ} (hround : ∀ s s', I s → body s = .inl s' → I s' ∧ μ s' < μ s) :
    ∀ {s : S}, I s → ∃ r, ∀ rounds, μ s < rounds → loop body rounds s = some r := by
  intro s
  induction hm : μ s using Nat.strongRecOn generalizing s with
  | ind m ih =>
    intro hI
    cases hb : body s with
    | inr r =>
      refine ⟨r, fun rounds h => ?_⟩
      cases rounds with
      | zero => exact absurd h (Nat.not_lt_zero _)
      | succ rounds => exact loop_exit hb rounds
    | inl s' =>
      obtain ⟨hI', hlt⟩ := hround s s' hI hb
      obtain ⟨r, hr⟩ := ih (μ s') (hm ▸ hlt) rfl hI'
      refine ⟨r, fun rounds h => ?_⟩
      cases rounds with
      | zero => exact absurd h (Nat.not_lt_zero _)
      | succ rounds =>
        rw [loop_next hb]
        exact hr rounds (by omega)

/-- INVARIANT RULE: what every round keeps holds when the loop exits. -/
theorem loop_exits (hround : ∀ s s', I s → body s = .inl s' → I s') : ∀ {rounds : ℕ} {s : S} {r : R},
    I s → loop body rounds s = some r → ∃ s', I s' ∧ body s' = .inr r
  | rounds + 1, s, r, hI, h => by
    cases hb : body s with
    | inr r' =>
      rw [loop_exit hb, Option.some.injEq] at h
      exact ⟨s, hI, h ▸ hb⟩
    | inl s' =>
      rw [loop_next hb] at h
      exact loop_exits hround (hround s s' hI hb) h

/-! ### A machine that goes on -/

/-- After some steps `f` has brought `s` to `t`. -/
def Reaches (f : S → S) (s t : S) : Prop := ∃ n : ℕ, f^[n] s = t

namespace Reaches
variable {f : S → S} {s t u : S}

theorem refl (f : S → S) (s : S) : Reaches f s s := ⟨0, rfl⟩

theorem step (h : f s = t) (ht : Reaches f t u) : Reaches f s u := by
  obtain ⟨n, hn⟩ := ht
  exact ⟨n + 1, by rw [Function.iterate_succ_apply, h, hn]⟩

theorem trans (h : Reaches f s t) (ht : Reaches f t u) : Reaches f s u := by
  obtain ⟨m, hm⟩ := h
  obtain ⟨n, hn⟩ := ht
  exact ⟨n + m, by rw [Function.iterate_add_apply, hm, hn]⟩

end Reaches

/-- INVARIANT RULE: what every step keeps holds after any number of steps. -/
theorem iterate_inv {f : S → S} {I : S → Prop} (hstep : ∀ s, I s → I (f s)) :
    ∀ (n : ℕ) {s : S}, I s → I (f^[n] s)
  | 0, _, h => h
  | n + 1, s, h => iterate_inv hstep n (hstep s h)

end Spanbarn.Schemes
