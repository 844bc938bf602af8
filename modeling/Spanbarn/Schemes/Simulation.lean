import Spanbarn.Schemes.Run

/-! Simulation up to steps nobody sees.

    Two systems run side by side. A step of the first is answered by any number of steps of the second
    that are seen alike, and the states stay related; so a run of the first has a run of the second that
    is seen alike.

        s ──a──▶ s'
        R        R
        t ─bs──▶ t'        seen bs = seen a -/

namespace Spanbarn.Schemes

variable {S T A B O : Type*}

/-- Every step that meets `C` from related states is answered, and the states stay related. -/
def Simulates (step : S → A → Option S) (step' : T → B → Option T) (C : S → A → Prop)
    (seen : A → Option O) (seen' : B → Option O) (R : S → T → Prop) : Prop :=
  ∀ s t a s', R s t → C s a → step s a = some s' →
    ∃ bs t', run step' t bs = some t' ∧ bs.filterMap seen' = (seen a).toList ∧ R s' t'

variable {step : S → A → Option S} {step' : T → B → Option T} {C : S → A → Prop}
  {seen : A → Option O} {seen' : B → Option O} {R : S → T → Prop}

theorem filterMap_cons_toList (f : A → Option O) (a : A) (as : List A) :
    (a :: as).filterMap f = (f a).toList ++ as.filterMap f := by
  rw [List.filterMap_cons]
  cases f a <;> rfl

/-- SIMULATION RULE: every run that meets `C` has a run of the other system that is seen alike. -/
theorem Simulates.run (h : Simulates step step' C seen seen' R) :
    ∀ {as : List A} {s s' : S} {t : T}, R s t → Meets step C s as → run step s as = some s' →
      ∃ bs t', run step' t bs = some t' ∧ bs.filterMap seen' = as.filterMap seen ∧ R s' t'
  | [], s, s', t, hR, _, hr => by
    rw [run_nil, Option.some.injEq] at hr
    exact ⟨[], t, rfl, rfl, hr ▸ hR⟩
  | a :: as, s, s', t, hR, hC, hr => by
    obtain ⟨m, hm, hr⟩ := run_cons.mp hr
    obtain ⟨bs, u, hbs, hseen, hRu⟩ := h s t a m hR hC.1 hm
    obtain ⟨cs, t', hcs, hseen', hR'⟩ := h.run hRu (hC.2 m hm) hr
    refine ⟨bs ++ cs, t', run_append.mpr ⟨u, hbs, hcs⟩, ?_, hR'⟩
    rw [List.filterMap_append, hseen, hseen', filterMap_cons_toList]

end Spanbarn.Schemes
