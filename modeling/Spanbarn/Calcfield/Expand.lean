import Spanbarn.Calcfield.Compile
import Spanbarn.Schemes.TwoRuns

/-! What a calculated field expands to.

    The template of an expression puts every literal where it stands in the expression, and for an
    identifier the template of what it reads; a field's template is that of its expression, with the
    fields it uses expanded inside. Compiling keeps text and values in step with it, and of two alike
    expressions the text is the same. -/

namespace Spanbarn.Calcfield
open List Spanbarn.Schemes Spanbarn.Filter

variable {F : Type}

/-! ### Templates -/

mutual

/-- The template of an expression, given those of its identifiers. -/
def Term.template (ρ : String → Template (Arg F)) : Term F → Template (Arg F)
  | .number n => [.bind n.arg]
  | .string s => [.bind (.text s)]
  | .ident key => ρ key
  | .unary .not x => .lit "(NOT " :: x.template ρ ++ [.lit ")"]
  | .unary .neg x => .lit "(0 - " :: x.template ρ ++ [.lit ")"]
  | .binary op l r =>
    if op = .div then
      .lit "(CAST(" :: l.template ρ ++ .lit " AS REAL) / " :: r.template ρ ++ [.lit ")"]
    else
      .lit "(" :: l.template ρ ++ .lit " " :: .lit (binarySQL op) :: .lit " " :: r.template ρ ++
        [.lit ")"]
  | .lower x => .lit "lower(" :: x.template ρ ++ [.lit ")"]
  | .cond c t e =>
    .lit "(CASE WHEN " :: c.template ρ ++ .lit " THEN " :: t.template ρ ++ .lit " ELSE " ::
      e.template ρ ++ [.lit " END)"]
  | .coalesce args => .lit "COALESCE(" :: joinTemplates ", " (templates ρ args) ++ [.lit ")"]
  | .concat args =>
    .lit "(" :: joinTemplates " || " ((templates ρ args).map fun t =>
      .lit "COALESCE(CAST(" :: t ++ [.lit " AS TEXT), '')"]) ++ [.lit ")"]

def templates (ρ : String → Template (Arg F)) : List (Term F) → List (Template (Arg F))
  | [] => []
  | t :: ts => t.template ρ :: templates ρ ts

end

/-- The template of a key in a set: a field expands, `depth` fields deep, anything else is read by
    `operandTemplate`. -/
def FieldSet.template (s : FieldSet F) (operandTemplate : String → Template (Arg F)) :
    ℕ → String → Template (Arg F)
  | 0, key => if !s.has key then operandTemplate key else []
  | depth + 1, key =>
    if !s.has key then operandTemplate key
    else
      match s.fields.lookup key with
      | some (.ok t) => t.template (s.template operandTemplate depth)
      | _ => []

/-! ### Compiling is in step with the template -/

theorem unarySQL_eq (op : UnaryOp) (t : Template (Arg F)) :
    unarySQL op (bound t) = bound (match op with
      | .not => .lit "(NOT " :: t ++ [.lit ")"]
      | .neg => .lit "(0 - " :: t ++ [.lit ")"]) := by
  cases op <;> simp [unarySQL, bound]

theorem binaryBound_eq (op : BinaryOp) (l r : Template (Arg F)) :
    binaryBound op (bound l) (bound r) = bound (
      if op = .div then .lit "(CAST(" :: l ++ .lit " AS REAL) / " :: r ++ [.lit ")"]
      else .lit "(" :: l ++ .lit " " :: .lit (binarySQL op) :: .lit " " :: r ++ [.lit ")"]) := by
  unfold binaryBound
  split <;> simp [bound]

theorem condSQL_eq (c t e : Template (Arg F)) :
    condSQL (bound c) (bound t) (bound e) = bound (
      .lit "(CASE WHEN " :: c ++ .lit " THEN " :: t ++ .lit " ELSE " :: e ++ [.lit " END)"]) := by
  simp [condSQL, bound]

@[simp] theorem map_bound_text (ts : List (Template (Arg F))) :
    (ts.map bound).map Bound.text = ts.map textOf := by
  rw [map_map]
  rfl

@[simp] theorem map_bound_args (ts : List (Template (Arg F))) :
    (ts.map bound).map Bound.args = ts.map argsOf := by
  rw [map_map]
  rfl

theorem coalesceSQL_eq (ts : List (Template (Arg F))) :
    coalesceSQL (ts.map bound) =
      bound (.lit "COALESCE(" :: joinTemplates ", " ts ++ [.lit ")"]) := by
  simp only [coalesceSQL, map_bound_text, map_bound_args]
  simp [bound]

theorem concatSQL_eq (ts : List (Template (Arg F))) :
    concatSQL (ts.map bound) = bound (.lit "(" :: joinTemplates " || " (ts.map fun t =>
      .lit "COALESCE(CAST(" :: t ++ [.lit " AS TEXT), '')"]) ++ [.lit ")"]) := by
  simp [concatSQL, bound, Function.comp_def]

variable {ρ : String → Template (Arg F)}

mutual

/-- Where identifiers are in step with their templates, the whole expression is. -/
theorem node_template {resolve : Resolver F}
    (hρ : ∀ key budget r, resolve key budget = .ok r → r.1 = bound (ρ key)) :
    ∀ (t : Term F) {budget : ℤ} {r : Bound (Arg F) × ℤ},
    node resolve t budget = .ok r → r.1 = bound (t.template ρ)
  | .number n, budget, r, h => by
    obtain ⟨b, -, h⟩ := bind_ok.mp (by rw [node] at h; exact h)
    cases h
    simp [Term.template, bound, textOf, argsOf]
  | .string s, budget, r, h => by
    obtain ⟨b, -, h⟩ := bind_ok.mp (by rw [node] at h; exact h)
    cases h
    simp [Term.template, bound, textOf, argsOf]
  | .ident key, budget, r, h => by
    obtain ⟨b, -, h⟩ := bind_ok.mp (by rw [node] at h; exact h)
    rw [Term.template]
    exact hρ key b r h
  | .unary op x, budget, r, h => by
    obtain ⟨b, -, h⟩ := bind_ok.mp (by rw [node] at h; exact h)
    obtain ⟨⟨x', b'⟩, hx, h⟩ := bind_ok.mp h
    cases h
    have ih := node_template hρ x hx
    dsimp only at ih ⊢
    rw [ih, unarySQL_eq]
    cases op <;> rw [Term.template]
  | .binary op l r', budget, r, h => by
    obtain ⟨b, -, h⟩ := bind_ok.mp (by rw [node] at h; exact h)
    obtain ⟨⟨l', b'⟩, hl, h⟩ := bind_ok.mp h
    obtain ⟨⟨r'', b''⟩, hr, h⟩ := bind_ok.mp h
    cases h
    have ihl := node_template hρ l hl
    have ihr := node_template hρ r' hr
    dsimp only at ihl ihr ⊢
    rw [ihl, ihr, binaryBound_eq, Term.template]
  | .lower x, budget, r, h => by
    obtain ⟨b, -, h⟩ := bind_ok.mp (by rw [node] at h; exact h)
    obtain ⟨⟨x', b'⟩, hx, h⟩ := bind_ok.mp h
    cases h
    have ih := node_template hρ x hx
    dsimp only at ih ⊢
    rw [ih, Term.template]
    simp [bound, cat, textOf, argsOf]
  | .cond c t e, budget, r, h => by
    obtain ⟨b, -, h⟩ := bind_ok.mp (by rw [node] at h; exact h)
    obtain ⟨⟨c', b'⟩, hc, h⟩ := bind_ok.mp h
    obtain ⟨⟨t', b''⟩, ht, h⟩ := bind_ok.mp h
    obtain ⟨⟨e', b'''⟩, he, h⟩ := bind_ok.mp h
    cases h
    have ihc := node_template hρ c hc
    have iht := node_template hρ t ht
    have ihe := node_template hρ e he
    dsimp only at ihc iht ihe ⊢
    rw [ihc, iht, ihe, condSQL_eq, Term.template]
  | .coalesce args, budget, r, h => by
    obtain ⟨b, -, h⟩ := bind_ok.mp (by rw [node] at h; exact h)
    obtain ⟨⟨parts, b'⟩, hp, h⟩ := bind_ok.mp h
    cases h
    have ih := nodes_templates hρ args hp
    dsimp only at ih ⊢
    rw [ih, coalesceSQL_eq, Term.template]
  | .concat args, budget, r, h => by
    obtain ⟨b, -, h⟩ := bind_ok.mp (by rw [node] at h; exact h)
    obtain ⟨⟨parts, b'⟩, hp, h⟩ := bind_ok.mp h
    cases h
    have ih := nodes_templates hρ args hp
    dsimp only at ih ⊢
    rw [ih, concatSQL_eq, Term.template]

theorem nodes_templates {resolve : Resolver F}
    (hρ : ∀ key budget r, resolve key budget = .ok r → r.1 = bound (ρ key)) :
    ∀ (ts : List (Term F)) {budget : ℤ} {r : List (Bound (Arg F)) × ℤ},
    nodes resolve ts budget = .ok r → r.1 = (templates ρ ts).map bound
  | [], budget, r, h => by
    rw [nodes] at h
    cases h
    rw [templates]
    rfl
  | t :: ts, budget, r, h => by
    rw [nodes] at h
    obtain ⟨⟨p, b⟩, hp, h⟩ := bind_ok.mp h
    obtain ⟨⟨ps, b'⟩, hps, h⟩ := bind_ok.mp h
    cases h
    have ih := node_template hρ t hp
    have ihs := nodes_templates hρ ts hps
    dsimp only at ih ihs ⊢
    rw [ih, ihs, templates, map_cons]

end

variable {s : FieldSet F} {operandTemplate : String → Template (Arg F)}

/-- Where the operands are in step with their templates, so is every key. -/
theorem resolver_template (hop : ∀ key b, s.operand key = .ok b → b = bound (operandTemplate key)) :
    ∀ (depth : ℕ) {stack : List String} (key : String) {budget : ℤ} {r : Bound (Arg F) × ℤ},
      s.resolver depth stack key budget = .ok r →
        r.1 = bound (s.template operandTemplate depth key) := by
  have hoperand : ∀ {key budget} {r : Bound (Arg F) × ℤ},
      (s.operand key).map (fun b => (b, budget)) = .ok r → r.1 = bound (operandTemplate key) := by
    intro key budget r h
    cases ho : s.operand key with
    | error e =>
      rw [ho] at h
      cases h
    | ok b =>
      rw [ho] at h
      cases h
      exact hop key b ho
  intro depth
  induction depth with
  | zero =>
    intro stack key budget r h
    rw [FieldSet.resolver] at h
    rw [FieldSet.template]
    split at h
    · rename_i hhas
      rw [if_pos hhas]
      exact hoperand h
    · split at h
      · cases h
      · cases h
  | succ depth ih =>
    intro stack key budget r h
    rw [FieldSet.resolver] at h
    rw [FieldSet.template]
    split at h
    · rename_i hhas
      rw [if_pos hhas]
      exact hoperand h
    · rename_i hhas
      rw [if_neg hhas]
      split at h
      · cases h
      · rw [FieldSet.compileField] at h
        cases hf : s.fields.lookup key with
        | none =>
          rw [hf] at h
          cases h
        | some e =>
          rw [hf] at h
          cases e with
          | error e => cases h
          | ok t => exact node_template (fun k b r hr => ih k hr) t h

/-- The template of a field: its expression, all fields it uses expanded. -/
def FieldSet.fieldTemplate (s : FieldSet F) (operandTemplate : String → Template (Arg F))
    (name : String) : Template (Arg F) :=
  s.template operandTemplate (s.fields.entries.length + 1) name

/-- A field that compiles is in step with its template. -/
theorem lookup_template (hop : ∀ key b, s.operand key = .ok b → b = bound (operandTemplate key))
    {name : String} {b : Bound (Arg F)} (h : s.lookup name = .ok (some b)) :
    s.has name = true ∧ b = bound (s.fieldTemplate operandTemplate name) := by
  rw [FieldSet.lookup] at h
  split at h
  · cases h
  · rename_i hhas
    have hhas' : s.has name = true := by simpa using hhas
    refine ⟨hhas', ?_⟩
    rw [FieldSet.fieldTemplate, FieldSet.template, if_neg hhas]
    rw [FieldSet.compileField] at h
    cases hf : s.fields.lookup name with
    | none =>
      rw [hf] at h
      cases h
    | some e =>
      rw [hf] at h
      cases e with
      | error e => cases h
      | ok t =>
        dsimp only at h ⊢
        cases hn : node (s.resolver s.fields.entries.length [name]) t maxExpansion with
        | error e =>
          rw [hn] at h
          cases h
        | ok r =>
          rw [hn] at h
          cases h
          exact node_template (fun k b r hr => resolver_template hop _ k hr) t hn

/-! ### Templates have no stray question marks -/

theorem binarySQL_clean (op : BinaryOp) : placeholders (binarySQL op) = 0 := by
  cases op <;> simp [binarySQL, placeholders]

mutual

theorem clean_template (hρ : ∀ key, Clean (ρ key)) :
    ∀ t : Term F, Clean (t.template ρ)
  | .number n => by simp [Term.template]
  | .string s => by simp [Term.template]
  | .ident key => by
    rw [Term.template]
    exact hρ key
  | .unary .not x => by
    simp only [Term.template, cons_append, clean_append, clean_lit, clean_nil, and_true,
      clean_template hρ x, true_and]
    simp [placeholders]
  | .unary .neg x => by
    simp only [Term.template, cons_append, clean_append, clean_lit, clean_nil, and_true,
      clean_template hρ x, true_and]
    simp [placeholders]
  | .binary op l r => by
    rw [Term.template]
    split
    · simp only [cons_append, clean_append, clean_lit, clean_nil, and_true,
        clean_template hρ l, clean_template hρ r, true_and]
      simp [placeholders]
    · simp only [cons_append, clean_append, clean_lit, clean_nil, and_true,
        clean_template hρ l, clean_template hρ r, binarySQL_clean op, true_and]
      simp [placeholders]
  | .lower x => by
    simp only [Term.template, cons_append, clean_append, clean_lit, clean_nil, and_true,
      clean_template hρ x, true_and]
    simp [placeholders]
  | .cond c t e => by
    simp only [Term.template, cons_append, clean_append, clean_lit, clean_nil, and_true,
      clean_template hρ c, clean_template hρ t, clean_template hρ e, true_and]
    simp [placeholders]
  | .coalesce args => by
    have hjoin := clean_joinTemplates ", " (by simp [placeholders]) (clean_templates hρ args)
    simp only [Term.template, cons_append, clean_append, clean_lit, clean_nil, and_true, hjoin,
      true_and]
    simp [placeholders]
  | .concat args => by
    have hargs : ∀ t ∈ (templates ρ args).map (fun t =>
        .lit "COALESCE(CAST(" :: t ++ [.lit " AS TEXT), '')"]), Clean t := by
      intro t ht
      obtain ⟨u, hu, rfl⟩ := mem_map.mp ht
      have hclean := clean_templates hρ args u hu
      simp only [cons_append, clean_append, clean_lit, clean_nil, and_true, hclean, true_and]
      simp [placeholders]
    have hjoin := clean_joinTemplates " || " (by simp [placeholders]) hargs
    rw [Term.template]
    exact clean_append.mpr ⟨clean_lit.mpr ⟨by simp [placeholders], hjoin⟩,
      clean_lit.mpr ⟨by simp [placeholders], clean_nil⟩⟩

theorem clean_templates (hρ : ∀ key, Clean (ρ key)) :
    ∀ ts : List (Term F), ∀ t ∈ templates ρ ts, Clean t
  | [] => by
    rw [templates]
    exact forall_mem_nil _
  | t :: ts => by
    rw [templates]
    exact forall_mem_cons.mpr ⟨clean_template hρ t, clean_templates hρ ts⟩

end

theorem clean_fieldTemplates (hop : ∀ key, Clean (operandTemplate key)) :
    ∀ (depth : ℕ) (key : String), Clean (s.template operandTemplate depth key) := by
  intro depth
  induction depth with
  | zero =>
    intro key
    rw [FieldSet.template]
    split
    · exact hop key
    · exact clean_nil
  | succ depth ih =>
    intro key
    rw [FieldSet.template]
    split
    · exact hop key
    · split
      · exact clean_template ih _
      · exact clean_nil

/-! ### Alike expressions -/

mutual

/-- The same tree up to the values of literals and up to identifiers that correspond. -/
inductive Term.Alike (K : String → String → Prop) : Term F → Term F → Prop
  | number (n m : Num F) : Term.Alike K (.number n) (.number m)
  | string (a b : String) : Term.Alike K (.string a) (.string b)
  | ident {k k' : String} (h : K k k') : Term.Alike K (.ident k) (.ident k')
  | unary (op : UnaryOp) {x y : Term F} (h : Term.Alike K x y) : Term.Alike K (.unary op x) (.unary op y)
  | binary (op : BinaryOp) {l l' r r' : Term F} (hl : Term.Alike K l l') (hr : Term.Alike K r r') :
      Term.Alike K (.binary op l r) (.binary op l' r')
  | lower {x y : Term F} (h : Term.Alike K x y) : Term.Alike K (.lower x) (.lower y)
  | cond {c c' t t' e e' : Term F} (hc : Term.Alike K c c') (ht : Term.Alike K t t')
      (he : Term.Alike K e e') :
      Term.Alike K (.cond c t e) (.cond c' t' e')
  | coalesce {as bs : List (Term F)} (h : AlikeAll K as bs) : Term.Alike K (.coalesce as) (.coalesce bs)
  | concat {as bs : List (Term F)} (h : AlikeAll K as bs) : Term.Alike K (.concat as) (.concat bs)

inductive AlikeAll (K : String → String → Prop) : List (Term F) → List (Term F) → Prop
  | nil : AlikeAll K [] []
  | cons {a b : Term F} {as bs : List (Term F)} (h : Term.Alike K a b) (hs : AlikeAll K as bs) :
      AlikeAll K (a :: as) (b :: bs)

end

/-- The same text, and the same budget left; or two failures. -/
abbrev SameText : Except CalcError (Bound (Arg F) × ℤ) → Except CalcError (Bound (Arg F) × ℤ) → Prop :=
  Same fun r => (r.1.text, r.2)

/-- The same for the arguments of a call. -/
abbrev SameTexts : Except CalcError (List (Bound (Arg F)) × ℤ) →
    Except CalcError (List (Bound (Arg F)) × ℤ) → Prop :=
  Same fun r => (r.1.map Bound.text, r.2)

theorem SameText.bind {β υ : Type} {view : β → υ} {x y : Except CalcError (Bound (Arg F) × ℤ)}
    (h : SameText x y) {f g : Bound (Arg F) × ℤ → Except CalcError β}
    (hfg : ∀ a b n, a.text = b.text → Same view (f (a, n)) (g (b, n))) :
    Same view (x >>= f) (y >>= g) := by
  refine Same.bind h ?_
  rintro ⟨a, n⟩ ⟨b, m⟩ hab
  obtain ⟨htext, rfl⟩ : a.text = b.text ∧ n = m := Prod.mk.inj hab
  exact hfg a b n htext

theorem SameTexts.bind {β υ : Type} {view : β → υ}
    {x y : Except CalcError (List (Bound (Arg F)) × ℤ)} (h : SameTexts x y)
    {f g : List (Bound (Arg F)) × ℤ → Except CalcError β}
    (hfg : ∀ a b n, a.map Bound.text = b.map Bound.text → Same view (f (a, n)) (g (b, n))) :
    Same view (x >>= f) (y >>= g) := by
  refine Same.bind h ?_
  rintro ⟨a, n⟩ ⟨b, m⟩ hab
  obtain ⟨htexts, rfl⟩ : a.map Bound.text = b.map Bound.text ∧ n = m := Prod.mk.inj hab
  exact hfg a b n htexts

/-- Both spend one term, or both are over the budget. -/
theorem same_spend (budget : ℤ) {f g : ℤ → Except CalcError (Bound (Arg F) × ℤ)}
    (hfg : ∀ b, SameText (f b) (g b)) :
    SameText (spend 1 budget >>= f) (spend 1 budget >>= g) := by
  cases Calcfield.spend 1 budget with
  | error e => trivial
  | ok b => exact hfg b

mutual

/-- Alike expressions compile to the same text, or both fail. -/
theorem node_alike {resolve : Resolver F} {K : String → String → Prop}
    (hK : ∀ k k' budget, K k k' → SameText (resolve k budget) (resolve k' budget)) :
    ∀ {t t' : Term F}, Term.Alike K t t' → ∀ budget,
      SameText (node resolve t budget) (node resolve t' budget)
  | _, _, .number n m, budget => by
    rw [node, node]
    exact same_spend budget fun b => rfl
  | _, _, .string a b, budget => by
    rw [node, node]
    exact same_spend budget fun b => rfl
  | _, _, .ident h, budget => by
    rw [node, node]
    exact same_spend budget fun b => hK _ _ b h
  | _, _, .unary op h, budget => by
    rw [node, node]
    refine same_spend budget fun b => (node_alike hK h b).bind ?_
    intro x y n htext
    cases op <;> simp only [Same, unarySQL, htext]
  | _, _, .binary op hl hr, budget => by
    rw [node, node]
    refine same_spend budget fun b => (node_alike hK hl b).bind ?_
    intro l l' n hltext
    refine (node_alike hK hr n).bind ?_
    intro r r' m hrtext
    simp only [Same, binaryBound]
    split
    · simp only [hltext, hrtext]
    · simp only [hltext, hrtext]
  | _, _, .lower h, budget => by
    rw [node, node]
    refine same_spend budget fun b => (node_alike hK h b).bind ?_
    intro x y n htext
    simp only [Same, htext]
  | _, _, .cond hc ht he, budget => by
    rw [node, node]
    refine same_spend budget fun b => (node_alike hK hc b).bind ?_
    intro c c' n₁ hctext
    refine (node_alike hK ht n₁).bind ?_
    intro t t' n₂ httext
    refine (node_alike hK he n₂).bind ?_
    intro e e' n₃ hetext
    simp only [Same, condSQL, hctext, httext, hetext]
  | _, _, .coalesce h, budget => by
    rw [node, node]
    refine same_spend budget fun b => (nodes_alike hK h b).bind ?_
    intro ps qs n htexts
    simp only [Same, coalesceSQL, htexts]
  | _, _, .concat h, budget => by
    rw [node, node]
    refine same_spend budget fun b => (nodes_alike hK h b).bind ?_
    intro ps qs n htexts
    have hmap : ∀ l : List (Bound (Arg F)),
        l.map (fun p => cat ["COALESCE(CAST(", p.text, " AS TEXT), '')"]) =
          (l.map Bound.text).map fun x => cat ["COALESCE(CAST(", x, " AS TEXT), '')"] := fun l => by
      rw [map_map]
      rfl
    simp only [Same, concatSQL, hmap, htexts]

theorem nodes_alike {resolve : Resolver F} {K : String → String → Prop}
    (hK : ∀ k k' budget, K k k' → SameText (resolve k budget) (resolve k' budget)) :
    ∀ {ts ts' : List (Term F)}, AlikeAll K ts ts' → ∀ budget,
      SameTexts (nodes resolve ts budget) (nodes resolve ts' budget)
  | _, _, .nil, budget => by
    rw [nodes]
    exact rfl
  | _, _, .cons h hs, budget => by
    rw [nodes, nodes]
    refine (node_alike hK h budget).bind ?_
    intro p q n htext
    refine (nodes_alike hK hs n).bind ?_
    intro ps qs m htexts
    simp [Same, htext, htexts]

end

end Spanbarn.Calcfield
