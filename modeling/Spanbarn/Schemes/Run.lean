import Mathlib.Data.List.Basic
import Mathlib.Data.Option.Basic

/-! Runs of a partial step function.

    A system is a state type `S`, an action type `A` that carries every choice the environment makes
    (who moves, which call fails, what the clock says) and a step `S → A → Option S` that answers
    `none` when the action is not enabled. A run is a list of actions; quantifying over all lists
    quantifies over all interleavings, and every prefix of a run is a run, so a statement about the
    last state of every run is a statement about every point of every run. -/

namespace Spanbarn.Schemes

variable {S A : Type*}

/-- Run a list of actions; `none` as soon as one of them is not enabled. -/
def run (step : S → A → Option S) : S → List A → Option S
  | s, [] => some s
  | s, a :: as => (step s a).bind fun s' => run step s' as

/-- Every action of the run meets `C` in the state it is taken in. -/
def Meets (step : S → A → Option S) (C : S → A → Prop) : S → List A → Prop
  | _, [] => True
  | s, a :: as => C s a ∧ ∀ s', step s a = some s' → Meets step C s' as

instance decidableMeets (step : S → A → Option S) (C : S → A → Prop) [∀ s a, Decidable (C s a)] :
    ∀ s as, Decidable (Meets step C s as)
  | _, [] => isTrue trivial
  | s, a :: as =>
    match h : step s a with
    | none => decidable_of_iff (C s a) (by simp [Meets, h])
    | some m =>
      have := decidableMeets step C m as
      decidable_of_iff (C s a ∧ Meets step C m as) (by simp [Meets, h])

@[simp] theorem run_nil (step : S → A → Option S) (s : S) : run step s [] = some s := rfl

variable {step : S → A → Option S} {C : S → A → Prop}

theorem run_cons {s s' : S} {a : A} {as : List A} :
    run step s (a :: as) = some s' ↔ ∃ m, step s a = some m ∧ run step m as = some s' := by
  simp [run, Option.bind_eq_some_iff]

theorem run_append : ∀ {as bs : List A} {s s' : S},
    run step s (as ++ bs) = some s' ↔ ∃ m, run step s as = some m ∧ run step m bs = some s'
  | [], bs, s, s' => by simp
  | a :: as, bs, s, s' => by
    rw [List.cons_append, run_cons]
    constructor
    · rintro ⟨m, hm, hr⟩
      obtain ⟨n, hn, hb⟩ := run_append.mp hr
      exact ⟨n, run_cons.mpr ⟨m, hm, hn⟩, hb⟩
    · rintro ⟨n, hn, hb⟩
      obtain ⟨m, hm, hr⟩ := run_cons.mp hn
      exact ⟨m, hm, run_append.mpr ⟨n, hr, hb⟩⟩

/-- INVARIANT RULE: what every step preserves, every run preserves. -/
theorem inv_run {I : S → Prop} (hstep : ∀ s a s', I s → step s a = some s' → I s') :
    ∀ {as : List A} {s s' : S}, I s → run step s as = some s' → I s'
  | [], s, s', hI, h => by
    rw [run_nil, Option.some.injEq] at h
    exact h ▸ hI
  | a :: as, s, s', hI, h => by
    obtain ⟨m, hm, hr⟩ := run_cons.mp h
    exact inv_run hstep (hstep s a m hI hm) hr

/-- INVARIANT RULE under a condition on the steps: what every step that meets `C` preserves, every
    run whose steps all meet `C` preserves. -/
theorem inv_run_meets {I : S → Prop} (hstep : ∀ s a s', I s → C s a → step s a = some s' → I s') :
    ∀ {as : List A} {s s' : S}, I s → Meets step C s as → run step s as = some s' → I s'
  | [], s, s', hI, _, h => by
    rw [run_nil, Option.some.injEq] at h
    exact h ▸ hI
  | a :: as, s, s', hI, hC, h => by
    obtain ⟨m, hm, hr⟩ := run_cons.mp h
    exact inv_run_meets hstep (hstep s a m hI hC.1 hm) (hC.2 m hm) hr

/-- A condition on the actions alone is met by every run of such actions. -/
theorem meets_of_forall : ∀ {as : List A} {s : S}, (∀ a ∈ as, ∀ s, C s a) → Meets step C s as
  | [], _, _ => trivial
  | a :: _, s, h =>
    ⟨h a List.mem_cons_self s, fun _ _ => meets_of_forall fun b hb => h b (List.mem_cons_of_mem _ hb)⟩

theorem Meets.and {D : S → A → Prop} : ∀ {as : List A} {s : S},
    Meets step C s as → Meets step D s as → Meets step (fun s a => C s a ∧ D s a) s as
  | [], _, _, _ => trivial
  | _ :: _, _, hC, hD =>
    ⟨⟨hC.1, hD.1⟩, fun s' hs => (hC.2 s' hs).and (hD.2 s' hs)⟩

end Spanbarn.Schemes
