import Spanbarn.Filter.Template

/-! User text never shapes SQL.

    Two filters that agree but for the texts of values and attribute names have the same SQL; only what
    is bound to its placeholders differs. The same holds for the expressions of calculated fields:

        user = ‹alice›   ⟶   text = ?   [$."user", $."user", alice]
        role = ‹admin›   ⟶   text = ?   [$."role", $."role", admin]      -/

namespace Spanbarn.Filter
open Spanbarn.Schemes Spanbarn.Calcfield

variable {F : Type}

/-! ### Filters that agree but for texts -/

/-- The key reads an attribute. -/
def IsAttribute (s : FieldSet F) (key : String) : Prop :=
  (explicitAttr key).isSome = true ∨ columns key = none ∧ s.has key = false

/-- Two keys that read the same span column, some attribute each, or the same calculated field. -/
inductive KeysAlike (s : FieldSet F) : String → String → Prop
  | column {k k' : String} (c : Column) (h : resolveBuiltinOrAttr (X := Empty) k = .column c)
      (h' : resolveBuiltinOrAttr (X := Empty) k' = .column c) : KeysAlike s k k'
  | attr {k k' : String} (h : IsAttribute s k) (h' : IsAttribute s k') : KeysAlike s k k'
  | field {k : String} (h : s.has k = true) : KeysAlike s k k

/-- The values agree on whether they parse as numbers. -/
def ValuesAlike (parseFloat : String → Option F) (v v' : String) : Prop :=
  (parseFloat v).isSome = (parseFloat v').isSome

instance (parseFloat : String → Option F) (v v' : String) : Decidable (ValuesAlike parseFloat v v') :=
  inferInstanceAs (Decidable (_ = _))

mutual

/-- The same tree, operators, match modes and number of values, with keys and values that correspond. -/
inductive Node.Alike (K : String → String → Prop) (parseFloat : String → Option F) : Node → Node → Prop
  | mk {key key' value value' : String} {values values' : List String} {filters filters' : List Node}
      (op : Op) (mode : Mode) (hkey : K key key') (hvalue : ValuesAlike parseFloat value value')
      (hvalues : List.Forall₂ (ValuesAlike parseFloat) values values')
      (hfilters : MembersAlike K parseFloat filters filters') :
      Node.Alike K parseFloat (.mk key op value values mode filters)
        (.mk key' op value' values' mode filters')

inductive MembersAlike (K : String → String → Prop) (parseFloat : String → Option F) :
    List Node → List Node → Prop
  | nil : MembersAlike K parseFloat [] []
  | cons {c c' : Node} {fs fs' : List Node} (h : Node.Alike K parseFloat c c')
      (hs : MembersAlike K parseFloat fs fs') : MembersAlike K parseFloat (c :: fs) (c' :: fs')

end

variable {c c' : Node}

section alike
variable {parseFloat : String → Option F}

theorem MembersAlike.length_eq {K : String → String → Prop} : ∀ {fs fs' : List Node},
    MembersAlike K parseFloat fs fs' → fs.length = fs'.length
  | _, _, .nil => rfl
  | _, _, .cons _ hs => congrArg (· + 1) hs.length_eq

theorem Node.Alike.parts {K : String → String → Prop} (h : Node.Alike K parseFloat c c') :
    K c.key c'.key ∧ c.op = c'.op ∧ ValuesAlike parseFloat c.value c'.value ∧
      List.Forall₂ (ValuesAlike parseFloat) c.values c'.values ∧
        c.filters.length = c'.filters.length := by
  obtain ⟨op, mode, hkey, hvalue, hvalues, hfilters⟩ := h
  exact ⟨hkey, rfl, hvalue, hvalues, hfilters.length_eq⟩

/-- What SQL text depends on. -/
def Operand.shape : Operand (Bound (Arg F)) → Operand String
  | .column c => .column c
  | .attr _ => .attr ""
  | .field x => .field x.text

/-- Operands of one shape read the same column, some attribute each, or fields with the same text. -/
theorem Operand.shape_cases {o o' : Operand (Bound (Arg F))} (h : o.shape = o'.shape) :
    (∃ c, o = .column c ∧ o' = .column c) ∨ (∃ path path', o = .attr path ∧ o' = .attr path') ∨
      ∃ x x', o = .field x ∧ o' = .field x' ∧ x.text = x'.text := by
  cases o <;> cases o' <;> simp_all [Operand.shape]

theorem Operand.alike_of_shape {o o' : Operand (Bound (Arg F))} (h : o.shape = o'.shape) :
    o.isInt = o'.isInt ∧ o.text.text = o'.text.text ∧ o.number.text = o'.number.text ∧
      o.present.text = o'.present.text := by
  rcases Operand.shape_cases h with ⟨c, rfl, rfl⟩ | ⟨path, path', rfl, rfl⟩ | ⟨x, x', rfl, rfl, hx⟩
  · exact ⟨rfl, rfl, rfl, rfl⟩
  · exact ⟨rfl, rfl, rfl, rfl⟩
  · simp [Operand.isInt, Operand.text, Operand.number, Operand.present, hx]

/-- Two values that agree are both numbers, or neither is. -/
theorem ValuesAlike.cases {v v' : String} (h : ValuesAlike parseFloat v v') :
    (∃ f f', parseFloat v = some f ∧ parseFloat v' = some f') ∨
      parseFloat v = none ∧ parseFloat v' = none := by
  unfold ValuesAlike at h
  cases hv : parseFloat v <;> cases hv' : parseFloat v' <;> simp_all

theorem column_spec {key : String} {c : Column}
    (h : resolveBuiltinOrAttr (X := Empty) key = .column c) :
    explicitAttr key = none ∧ columns key = some c ∧ isBuiltin key = true := by
  unfold resolveBuiltinOrAttr at h
  split at h
  · cases h
  · split at h
    · cases h
      simp_all [isBuiltin, isColumn]
    · cases h

theorem IsAttribute.read {s : FieldSet F} {key : String} {X : Type} (h : IsAttribute s key) :
    ∃ path, resolveBuiltinOrAttr (X := X) key = .attr path := by
  unfold resolveBuiltinOrAttr
  split
  · exact ⟨_, rfl⟩
  · rename_i hexp
    rcases h with h | ⟨hcol, -⟩
    · simp [hexp] at h
    · rw [hcol]
      exact ⟨_, rfl⟩

theorem resolve_attribute {s : FieldSet F} {key : String}
    (h : IsAttribute s key) : ∃ path, resolve (some (calcResolver s)) key = .ok (.attr path) := by
  obtain ⟨path, hpath⟩ := h.read (X := Bound (Arg F))
  unfold resolve
  split
  · exact ⟨path, congrArg Except.ok hpath⟩
  · rename_i hb
    have hhas : s.has key = false := by
      rcases h with h | ⟨-, hhas⟩
      · simp [isBuiltin, h] at hb
      · exact hhas
    have hres : calcResolver s key = .ok none := by
      rw [calcResolver, FieldSet.lookup, hhas]
      rfl
    refine ⟨attrPath key, ?_⟩
    dsimp only
    rw [hres]
    rfl

theorem resolve_column {r : Option (KeyResolver F)} {key : String} {c : Column}
    (h : resolveBuiltinOrAttr (X := Empty) key = .column c) : resolve r key = .ok (.column c) := by
  obtain ⟨hexp, hc, hb⟩ := column_spec h
  unfold resolve
  rw [if_pos hb, resolveBuiltinOrAttr, hexp, hc]

/-- Keys that correspond read operands of the same shape, or both fail. -/
theorem resolve_alike {fields : Dict String (Except CalcError (Term F))} {k k' : String}
    (h : KeysAlike (calcSet fields) k k') :
    Same Operand.shape (resolve (some (calcResolver (calcSet fields))) k)
      (resolve (some (calcResolver (calcSet fields))) k') := by
  cases h with
  | column c h h' =>
    rw [resolve_column h, resolve_column h']
    rfl
  | attr h h' =>
    obtain ⟨path, hp⟩ := resolve_attribute h
    obtain ⟨path', hp'⟩ := resolve_attribute h'
    rw [hp, hp']
    rfl
  | field h => exact Same.refl _ _

theorem numArg_alike {v v' : String} (h : ValuesAlike parseFloat v v') :
    Same (fun _ => ()) (numArg parseFloat c v) (numArg parseFloat c' v') := by
  unfold numArg
  rcases h.cases with ⟨f, f', hv, hv'⟩ | ⟨hv, hv'⟩
  · rw [hv, hv']
    rfl
  · rw [hv, hv']
    trivial

theorem inValues_alike {isInt : Bool} {vs vs' : List String}
    (h : List.Forall₂ (ValuesAlike parseFloat) vs vs') :
    Same (fun _ => ()) (inValues parseFloat isInt c vs) (inValues parseFloat isInt c' vs') := by
  induction h with
  | nil => rfl
  | cons hv _ ih =>
    rw [inValues, inValues]
    split
    · exact (numArg_alike hv).bind fun f f' _ => ih.bind fun rest rest' _ => rfl
    · exact ih.bind fun rest rest' _ => rfl

section condition
variable {c c' : Node} (hop : c.op = c'.op) (hvalue : ValuesAlike parseFloat c.value c'.value)
variable {o o' : Operand (Bound (Arg F))} (ho : o.shape = o'.shape)
include hop hvalue ho

theorem compileEquality_alike :
    Same Bound.text (compileEquality parseFloat o c) (compileEquality parseFloat o' c') := by
  obtain ⟨hint, htext, hnum, -⟩ := Operand.alike_of_shape ho
  have hoperands : Same (fun p : Bound (Arg F) × Arg F => p.1.text) (equalityOperands parseFloat o c)
      (equalityOperands parseFloat o' c') := by
    unfold equalityOperands
    rw [← hint]
    split
    · exact (numArg_alike hvalue).bind fun f f' _ => hnum
    · rcases Operand.shape_cases ho with ⟨_, rfl, rfl⟩ | ⟨_, _, rfl, rfl⟩ | ⟨x, x', rfl, rfl, -⟩
      · exact htext
      · exact htext
      · rcases hvalue.cases with ⟨f, f', hv, hv'⟩ | ⟨hv, hv'⟩
        · simp only [hv, hv']
          exact hnum
        · simp only [hv, hv']
          exact htext
  unfold compileEquality
  refine hoperands.bind ?_
  rintro ⟨ref, val⟩ ⟨ref', val'⟩ href
  dsimp only at href ⊢
  rw [← hop]
  split
  · simp [Same, href]
  · simp [Same, negate, href]

theorem compileOrdering_alike :
    Same Bound.text (compileOrdering parseFloat o c) (compileOrdering parseFloat o' c') := by
  obtain ⟨hint, htext, hnum, -⟩ := Operand.alike_of_shape ho
  unfold compileOrdering
  rw [← hop, ← hint]
  rcases hvalue.cases with ⟨f, f', hv, hv'⟩ | ⟨hv, hv'⟩
  · simp only [numArg, hv, hv', Same, hnum]
  · simp only [numArg, hv, hv']
    split
    · trivial
    · simp only [Same, htext]

omit hvalue in
theorem compileSubstring_alike : (compileSubstring o c).text = (compileSubstring o' c').text := by
  obtain ⟨-, htext, -, -⟩ := Operand.alike_of_shape ho
  unfold compileSubstring
  rw [← hop]
  dsimp only
  split
  · simp [htext]
  · simp [htext]

omit hvalue in
theorem compileIn_alike (hvalues : List.Forall₂ (ValuesAlike parseFloat) c.values c'.values) :
    Same Bound.text (compileIn parseFloat o c) (compileIn parseFloat o' c') := by
  obtain ⟨hint, htext, hnum, -⟩ := Operand.alike_of_shape ho
  have href : (if o.isInt then o.number else o.text).text =
      (if o.isInt then o'.number else o'.text).text := by
    split
    · exact hnum
    · exact htext
  unfold compileIn
  rw [← hop, ← hint, ← hvalues.length_eq]
  refine (inValues_alike hvalues).bind fun vals vals' _ => ?_
  split
  · simp [Same, href]
  · simp [Same, negate, href]

end condition

variable {fields : Dict String (Except CalcError (Term F))}

theorem compileCondition_alike (h : Node.Alike (KeysAlike (calcSet fields)) parseFloat c c') :
    Same Bound.text (compileCondition parseFloat (some (calcResolver (calcSet fields))) c)
      (compileCondition parseFloat (some (calcResolver (calcSet fields))) c') := by
  obtain ⟨hkey, hop, hvalue, hvalues, -⟩ := h.parts
  unfold compileCondition
  refine (resolve_alike hkey).bind fun o o' ho => ?_
  obtain ⟨-, -, -, hpresent⟩ := Operand.alike_of_shape ho
  rw [← hop]
  cases c.op
  case «exists» => exact hpresent
  case notExists => simp [Same, hpresent]
  case eq | ne => exact compileEquality_alike hop hvalue ho
  case gt | lt | gte | lte => exact compileOrdering_alike hop hvalue ho
  case contains | startsWith => exact compileSubstring_alike hop ho
  case isIn | notIn => exact compileIn_alike hop ho hvalues
  case other => trivial

mutual

theorem compileGroup_alike : ∀ {g g' : Node},
    Node.Alike (KeysAlike (calcSet fields)) parseFloat g g' →
      Same Bound.text (compileGroup parseFloat (some (calcResolver (calcSet fields))) g)
        (compileGroup parseFloat (some (calcResolver (calcSet fields))) g')
  | _, _, .mk op mode _ _ _ hfilters => by
    rw [compileGroup, compileGroup]
    refine (compileMembers_alike hfilters).bind fun parts parts' hparts => ?_
    simp [Same, hparts]

theorem compileMembers_alike : ∀ {fs fs' : List Node},
    MembersAlike (KeysAlike (calcSet fields)) parseFloat fs fs' →
      Same (List.map Bound.text) (compileMembers parseFloat (some (calcResolver (calcSet fields))) fs)
        (compileMembers parseFloat (some (calcResolver (calcSet fields))) fs')
  | _, _, .nil => by
    rw [compileMembers]
    exact rfl
  | c :: _, c' :: _, .cons h hs => by
    rw [compileMembers, compileMembers]
    obtain ⟨-, -, -, -, hlen⟩ := h.parts
    have hmember : Same Bound.text
        (if c.filters.length > 0 then compileGroup parseFloat (some (calcResolver (calcSet fields))) c
          else compileCondition parseFloat (some (calcResolver (calcSet fields))) c)
        (if c'.filters.length > 0 then compileGroup parseFloat (some (calcResolver (calcSet fields))) c'
          else compileCondition parseFloat (some (calcResolver (calcSet fields))) c') := by
      rw [← hlen]
      split
      · exact compileGroup_alike h
      · exact compileCondition_alike h
    refine hmember.bind fun part part' hpart => (compileMembers_alike hs).bind
      fun parts parts' hparts => ?_
    simp [Same, hpart, hparts]

end

/-- Identifiers that correspond resolve to the same text. -/
theorem resolver_alike {k k' : String} (h : KeysAlike (calcSet fields) k k') (depth : ℕ)
    (stack : List String) (budget : ℤ) :
    SameText ((calcSet fields).resolver depth stack k budget)
      ((calcSet fields).resolver depth stack k' budget) := by
  have hbuiltin : ∀ {k}, isBuiltin k = true → (calcSet fields).has k = false := by
    intro k hb
    have hb' : (calcSet fields).builtin k = true := hb
    rw [FieldSet.has, hb', Bool.not_true, Bool.and_false]
  have hoperand : ∀ {k}, (calcSet fields).has k = false →
      (calcSet fields).resolver depth stack k budget = .ok (valueSQL k, budget) := by
    intro k hhas
    unfold FieldSet.resolver
    rw [hhas]
    rfl
  cases h with
  | column c h h' =>
    have hcolumn : ∀ {k}, resolveBuiltinOrAttr (X := Empty) k = .column c →
        (calcSet fields).resolver depth stack k budget = .ok (⟨c.sql, []⟩, budget) := by
      intro k hk
      rw [hoperand (hbuiltin (column_spec hk).2.2)]
      unfold valueSQL
      rw [hk]
    rw [hcolumn h, hcolumn h']
    rfl
  | attr h h' =>
    have hattr : ∀ {k}, IsAttribute (calcSet fields) k → ∃ path,
        (calcSet fields).resolver depth stack k budget =
          .ok (⟨cat ["(CASE WHEN json_valid(attributes) THEN json_extract(attributes, ", "?", ") END)"],
            [.text path]⟩, budget) := by
      intro k hk
      have hhas : (calcSet fields).has k = false := by
        rcases hk with hk | ⟨-, hk⟩
        · exact hbuiltin (by rw [isBuiltin, hk, Bool.true_or])
        · exact hk
      obtain ⟨path, hpath⟩ := hk.read (X := Empty)
      rw [hoperand hhas]
      unfold valueSQL
      rw [hpath]
      exact ⟨path, rfl⟩
    obtain ⟨path, hp⟩ := hattr h
    obtain ⟨path', hp'⟩ := hattr h'
    rw [hp, hp']
    rfl
  | field h => exact Same.refl _ _

end alike

/-! ### User text never shapes SQL -/

/-- The SQL and values are those of a template, whose placeholders are the only question marks; so there
    are as many of them as values, and the value of each is the one in its place in the template. -/
def InStep (t : Template (Arg F)) (b : Bound (Arg F)) : Prop :=
  b.text = textOf t ∧ b.args = argsOf t ∧ placeholders b.text = b.args.length ∧
    ∀ pre a post, t = pre ++ .bind a :: post →
      b.text = textOf pre ++ "?" ++ textOf post ∧ b.args[placeholders (textOf pre)]? = some a

theorem inStep_bound {t : Template (Arg F)} (h : Clean t) : InStep t (bound t) :=
  ⟨rfl, rfl, placeholders_textOf h, fun _ _ _ ht => placeholder_bound h ht⟩

variable {b : Bound (Arg F)} {t : Term F} {depth : ℕ} {stack : List String}

section compiled
variable {parseFloat : String → Option F} {fields : Dict String (Except CalcError (Term F))}

/-- Filters that agree but for user text compile to the same SQL. -/
theorem compileWith_alike {e e' : Node} (hvalid : validate e = .ok ()) (hvalid' : validate e' = .ok ())
    (h : Node.Alike (KeysAlike (calcSet fields)) parseFloat e e') :
    Same Bound.text (compileWith parseFloat (some (calcResolver (calcSet fields))) (some e))
      (compileWith parseFloat (some (calcResolver (calcSet fields))) (some e')) := by
  obtain ⟨-, -, -, -, hlen⟩ := h.parts
  unfold compileWith
  dsimp only
  rw [hvalid, hvalid', ← hlen]
  split
  · rfl
  · exact compileGroup_alike h

/-- A compiled filter is in step with its template. -/
theorem compileWith_inStep {e : Node}
    (h : compileWith parseFloat (some (calcResolver (calcSet fields))) (some e) = .ok b) :
    ∃ t, filterTemplate parseFloat (readTemplate (calcSet fields)) e = some t ∧ InStep t b := by
  unfold compileWith at h
  unfold filterTemplate
  dsimp only at h
  split at h
  · rename_i hempty
    cases h
    rw [if_pos hempty]
    exact ⟨[], rfl, inStep_bound clean_nil⟩
  · rename_i hempty
    obtain ⟨-, -, h⟩ := bind_ok.mp h
    rw [compileGroup_select] at h
    cases hp : groupPred parseFloat (resolve (some (calcResolver (calcSet fields)))) e with
    | error err =>
      rw [hp] at h
      cases h
    | ok p =>
      rw [hp] at h
      cases h
      obtain ⟨q, hq, rfl⟩ := groupPred_map (resolve_eq fields) e hp
      rw [if_neg hempty, hq, q.sql_map]
      exact ⟨q.template, rfl, inStep_bound q.clean_template⟩

theorem compile_ok :
    compile ((calcSet fields).resolver depth stack) t = .ok b ↔
      ∃ r, node ((calcSet fields).resolver depth stack) t maxExpansion = .ok r ∧ r.1 = b := by
  unfold compile
  cases node ((calcSet fields).resolver depth stack) t maxExpansion with
  | error e | ok r => simp [Except.map]

/-- Expressions that agree but for user text compile to the same SQL. -/
theorem compile_alike {t' : Term F} (h : Term.Alike (KeysAlike (calcSet fields)) t t')
    (hb : compile ((calcSet fields).resolver depth stack) t = .ok b) :
    ∃ b', compile ((calcSet fields).resolver depth stack) t' = .ok b' ∧ b'.text = b.text := by
  have hsame := node_alike (fun k k' budget hk => resolver_alike hk depth stack budget) h maxExpansion
  obtain ⟨r, hr, rfl⟩ := compile_ok.mp hb
  obtain ⟨r', hr', hview⟩ := hsame.ok hr
  exact ⟨r'.1, compile_ok.mpr ⟨r', hr', rfl⟩, (Prod.mk.inj hview).1⟩

/-- A compiled expression is in step with its template. -/
theorem compile_inStep (h : compile ((calcSet fields).resolver depth stack) t = .ok b) :
    InStep (t.template ((calcSet fields).template valueTemplate depth)) b := by
  obtain ⟨r, hr, rfl⟩ := compile_ok.mp h
  have hop : ∀ key b, (calcSet fields).operand key = .ok b → b = bound (valueTemplate key) := by
    rintro key b ⟨⟩
    exact valueSQL_eq key
  rw [node_template (fun k b r hr => resolver_template hop depth k hr) t hr]
  exact inStep_bound (clean_template (clean_fieldTemplates clean_valueTemplate depth) t)

end compiled

/-- CORRECT: two valid filters that agree but for the texts of values and attribute names have the same
    SQL, two expressions likewise, and every compiled filter and expression is in step with the template
    that says what each placeholder is bound to. -/
theorem user_text_never_shapes_sql (parseFloat : String → Option F)
    (fields : Dict String (Except CalcError (Term F))) :
    (∀ e e', validate e = .ok () → validate e' = .ok () →
      Node.Alike (KeysAlike (calcSet fields)) parseFloat e e' → ∀ b,
        compileWith parseFloat (some (calcResolver (calcSet fields))) (some e) = .ok b →
          ∃ b', compileWith parseFloat (some (calcResolver (calcSet fields))) (some e') = .ok b' ∧
            b'.text = b.text) ∧
    (∀ t t' depth stack, Term.Alike (KeysAlike (calcSet fields)) t t' → ∀ b,
      compile ((calcSet fields).resolver depth stack) t = .ok b →
        ∃ b', compile ((calcSet fields).resolver depth stack) t' = .ok b' ∧ b'.text = b.text) ∧
    (∀ e b, compileWith parseFloat (some (calcResolver (calcSet fields))) (some e) = .ok b →
      ∃ t, filterTemplate parseFloat (readTemplate (calcSet fields)) e = some t ∧ InStep t b) ∧
    ∀ t depth stack b, compile ((calcSet fields).resolver depth stack) t = .ok b →
      InStep (t.template ((calcSet fields).template valueTemplate depth)) b := by
  refine ⟨fun e e' hvalid hvalid' halike b hb => ?_, fun t t' depth stack halike b hb => ?_,
    fun e b hb => ?_, fun t depth stack b hb => ?_⟩
  · exact (compileWith_alike hvalid hvalid' halike).ok hb
  · exact compile_alike halike hb
  · exact compileWith_inStep hb
  · exact compile_inStep hb

/-- One calculated field: the duration in milliseconds. -/
def durationField : Dict String (Except CalcError (Term ℕ)) :=
  (∅ : Dict String (Except CalcError (Term ℕ))).insert "dur_ms"
    (.ok (.binary .div (.ident "duration_us") (.number (.int 1000))))

/-- An attribute that equals a text, and a duration other than a number. -/
def attrAndDuration (key value duration : String) : Node :=
  .mk "" (.other "") "" [] .and
    [.mk key .eq value [] .unset [], .mk "dur_ms" .ne duration [] .unset []]

/-- The duration of the spans of which an attribute equals a text. -/
def durationWhere (key value : String) : Term ℕ :=
  .cond (.binary .eq (.ident key) (.string value)) (.ident "dur_ms") (.number (.int 0))

theorem exists_of_isOk {ε α : Type} {x : Except ε α} (h : x.isOk = true) : ∃ a, x = .ok a := by
  cases x with
  | ok a => exact ⟨a, rfl⟩
  | error e => cases h

/-- Another attribute and another text, in a filter and in an expression. -/
theorem user_and_role_same_sql :
    (∃ b b', compileWith digits (some (calcResolver (calcSet durationField)))
        (some (attrAndDuration "user" "alice" "5")) = .ok b ∧
      compileWith digits (some (calcResolver (calcSet durationField)))
        (some (attrAndDuration "role" "admin" "7")) = .ok b' ∧ b'.text = b.text) ∧
    ∃ b b', compile ((calcSet durationField).resolver 1 []) (durationWhere "user" "alice") = .ok b ∧
      compile ((calcSet durationField).resolver 1 []) (durationWhere "role" "admin") = .ok b' ∧
        b'.text = b.text := by
  obtain ⟨b, hb⟩ := exists_of_isOk (x := compileWith digits (some (calcResolver (calcSet durationField)))
    (some (attrAndDuration "user" "alice" "5"))) (by decide +kernel)
  obtain ⟨d, hd⟩ := exists_of_isOk (x := compile ((calcSet durationField).resolver 1 [])
    (durationWhere "user" "alice")) (by decide +kernel)
  have hattr : ∀ key, columns key = none → (calcSet durationField).has key = false →
      IsAttribute (calcSet durationField) key := fun key hcol hhas => .inr ⟨hcol, hhas⟩
  have huser := hattr "user" (by decide +kernel) (by decide +kernel)
  have hrole := hattr "role" (by decide +kernel) (by decide +kernel)
  have hroot := hattr "" (by decide +kernel) (by decide +kernel)
  have hdur : (calcSet durationField).has "dur_ms" = true := by decide +kernel
  have hfilter : Node.Alike (KeysAlike (calcSet durationField)) digits
      (attrAndDuration "user" "alice" "5") (attrAndDuration "role" "admin" "7") := by
    refine .mk _ _ (.attr hroot hroot) rfl .nil (.cons ?_ (.cons ?_ .nil))
    · exact .mk _ _ (.attr huser hrole) (by decide +kernel) .nil .nil
    · exact .mk _ _ (.field hdur) (by decide +kernel) .nil .nil
  have hterm : Term.Alike (KeysAlike (calcSet durationField)) (durationWhere "user" "alice")
      (durationWhere "role" "admin") :=
    .cond (.binary _ (.ident (.attr huser hrole)) (.string _ _)) (.ident (.field hdur)) (.number _ _)
  obtain ⟨hfilters, hterms, -⟩ := user_text_never_shapes_sql digits durationField
  obtain ⟨b', hb', htext⟩ := hfilters _ _ (by decide +kernel) (by decide +kernel) hfilter b hb
  obtain ⟨d', hd', hdtext⟩ := hterms _ _ 1 [] hterm d hd
  exact ⟨⟨b, b', hb, hb', htext⟩, d, d', hd, hd', hdtext⟩

end Spanbarn.Filter
