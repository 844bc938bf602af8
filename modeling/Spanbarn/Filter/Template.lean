import Spanbarn.Calcfield.Expand
import Spanbarn.Filter.Select

/-! What a filter is meant to say.

    The template of a filter is its SQL with every value, and every attribute path, in the place of its
    placeholder. It is the predicate of the filter, written out over operands that are templates
    themselves. The compiled text and values are those of the template, so the i-th placeholder is bound
    to the value meant for it, however often an operand is repeated:

        user != ‹alice›   ⟶   (text IS NULL OR text <> ?)     [$."user" four times, alice]

        filter ──▶ predicate over templates ──template──▶ template
                        │ map bound                          │ bound
                        ▼                                    ▼
                   predicate over SQL ───────sql──────▶ text and values      -/

namespace Spanbarn.Filter
open List Spanbarn.Schemes Spanbarn.Calcfield

variable {F : Type}

/-! ### The templates of predicates -/

/-- A negated comparison, that also holds for a missing key. -/
def negateTemplate (ref tail : Template (Arg F)) : Template (Arg F) :=
  .lit "(" :: ref ++ .lit " IS NULL OR " :: ref ++ .lit " " :: tail ++ [.lit ")"]

/-- Placeholders for the values of a list. -/
def listTemplate (vals : List (Arg F)) : Template (Arg F) := joinTemplates "," (vals.map ([.bind ·]))

def Reading.template : Reading (CleanTemplate F) → Template (Arg F)
  | .text o => o.textTemplate
  | .number o => o.numberTemplate

namespace Pred

mutual

/-- The predicate with its values in place. -/
def template : Pred F (CleanTemplate F) → Template (Arg F)
  | .present o => o.presentTemplate
  | .absent o => .lit "NOT (" :: o.presentTemplate ++ [.lit ")"]
  | .equals ref v => ref.template ++ [.lit " = ", .bind v]
  | .differs ref v => negateTemplate ref.template [.lit "<> ", .bind v]
  | .orders op ref v => ref.template ++ [.lit " ", .lit (orderSQL op), .lit " ", .bind v]
  | .contains o v => .lit "instr(" :: o.textTemplate ++ [.lit ", ", .bind (.text v), .lit ") > 0"]
  | .startsWith o v =>
    .lit "substr(" :: o.textTemplate ++ [.lit ", 1, ", .bind (.int v.length), .lit ") = ",
      .bind (.text v)]
  | .isIn ref vs => ref.template ++ .lit " IN (" :: listTemplate vs ++ [.lit ")"]
  | .notIn ref vs => negateTemplate ref.template (.lit "NOT IN (" :: listTemplate vs ++ [.lit ")"])
  | .group mode members => .lit "(" :: joinTemplates (joinSQL mode) (templates members) ++ [.lit ")"]

def templates : List (Pred F (CleanTemplate F)) → List (Template (Arg F))
  | [] => []
  | p :: ps => p.template :: templates ps

end

end Pred

/-- The template of a filter, given what its keys read; an empty one has none. -/
def filterTemplate (parseFloat : String → Option F) (ops : String → Operand (CleanTemplate F))
    (e : Node) : Option (Template (Arg F)) :=
  if e.filters.length = 0 then some []
  else (groupPred parseFloat (fun key => .ok (ops key)) e).toOption.map Pred.template

theorem clean_fieldTemplate (s : FieldSet F) (key : String) :
    Clean (s.fieldTemplate valueTemplate key) :=
  clean_fieldTemplates clean_valueTemplate _ key

/-- What a key reads in a set of calculated fields. -/
def readTemplate (s : FieldSet F) (key : String) : Operand (CleanTemplate F) :=
  if isBuiltin key then resolveBuiltinOrAttr key
  else if s.has key then .field ⟨s.fieldTemplate valueTemplate key, clean_fieldTemplate s key⟩
  else .attr (attrPath key)

/-! ### Predicates over other operands -/

variable {X Y : Type}

def Reading.map (f : X → Y) : Reading X → Reading Y
  | .text o => .text (o.map f)
  | .number o => .number (o.map f)

namespace Pred

mutual

def map (f : X → Y) : Pred F X → Pred F Y
  | .present o => .present (o.map f)
  | .absent o => .absent (o.map f)
  | .equals ref v => .equals (ref.map f) v
  | .differs ref v => .differs (ref.map f) v
  | .orders op ref v => .orders op (ref.map f) v
  | .contains o v => .contains (o.map f) v
  | .startsWith o v => .startsWith (o.map f) v
  | .isIn ref vs => .isIn (ref.map f) vs
  | .notIn ref vs => .notIn (ref.map f) vs
  | .group mode members => .group mode (maps f members)

def maps (f : X → Y) : List (Pred F X) → List (Pred F Y)
  | [] => []
  | p :: ps => p.map f :: maps f ps

end

end Pred

/-! ### Compiling is in step with the template -/

theorem negate_eq (ref tail : Template (Arg F)) :
    negate (bound ref) (textOf tail) (argsOf tail) = bound (negateTemplate ref tail) := by
  simp [negate, negateTemplate, bound]

theorem textOf_listTemplate (vals : List (Arg F)) : textOf (listTemplate vals) = marks vals.length := by
  rw [listTemplate, textOf_joinTemplates, marks, map_map]
  refine congrArg (join ",") ?_
  rw [← map_const']
  refine map_congr_left fun v _ => ?_
  simp

theorem argsOf_listTemplate (vals : List (Arg F)) : argsOf (listTemplate vals) = vals := by
  rw [listTemplate, argsOf_joinTemplates, map_map]
  induction vals with
  | nil => rfl
  | cons v vals ih =>
    rw [map_cons, flatten_cons, ih]
    rfl

theorem Reading.sql_map (ref : Reading (CleanTemplate F)) :
    (ref.map CleanTemplate.bound).sql = bound ref.template := by
  cases ref with
  | text o => exact o.text_eq
  | number o => exact o.number_eq

mutual

theorem Pred.sql_map : ∀ p : Pred F (CleanTemplate F), (p.map CleanTemplate.bound).sql = bound p.template
  | .present o => o.present_eq
  | .absent o => by
    have h : (o.map CleanTemplate.bound).present = bound o.presentTemplate := o.present_eq
    simp [Pred.map, Pred.sql, Pred.template, h, bound]
  | .equals ref v | .orders op ref v => by
    simp [Pred.map, Pred.sql, Pred.template, ref.sql_map, bound]
  | .differs ref v => by
    rw [Pred.map, Pred.sql, Pred.template, ref.sql_map, ← negate_eq]
    simp
  | .contains o v | .startsWith o v => by
    have h : (o.map CleanTemplate.bound).text = bound o.textTemplate := o.text_eq
    simp [Pred.map, Pred.sql, Pred.template, h, bound]
  | .isIn ref vs => by
    simp [Pred.map, Pred.sql, Pred.template, ref.sql_map, bound, textOf_listTemplate,
      argsOf_listTemplate]
  | .notIn ref vs => by
    rw [Pred.map, Pred.sql, Pred.template, ref.sql_map, ← negate_eq]
    simp [textOf_listTemplate, argsOf_listTemplate]
  | .group mode members => by
    simp [Pred.map, Pred.sql, Pred.template, Pred.sqls_maps members, bound, Function.comp_def]

theorem Pred.sqls_maps : ∀ ps : List (Pred F (CleanTemplate F)),
    Pred.sqls (Pred.maps CleanTemplate.bound ps) = (Pred.templates ps).map bound
  | [] => rfl
  | p :: ps => by rw [Pred.maps, Pred.sqls, Pred.sql_map p, Pred.sqls_maps ps, Pred.templates, map_cons]

end

section natural
variable {parseFloat : String → Option F} {ops : String → Operand X}
  {res : String → Except FilterError (Operand Y)} {f : X → Y}

theorem Operand.isInt_map (o : Operand X) : (o.map f).isInt = o.isInt := by
  cases o <;> rfl

/-- The predicate of a condition does not look into its operand. -/
theorem operandPred_map (o : Operand X) (c : Node) :
    operandPred parseFloat (o.map f) c = (operandPred parseFloat o c).map (Pred.map f) := by
  have hread : equalityReading parseFloat (o.map f) c =
      (equalityReading parseFloat o c).map fun p => (p.1.map f, p.2) := by
    unfold equalityReading
    rw [Operand.isInt_map]
    split
    · cases numArg parseFloat c c.value <;> rfl
    · cases o with
      | column col | attr path => rfl
      | field x =>
        dsimp only [Operand.map]
        cases parseFloat c.value <;> rfl
  unfold operandPred
  cases c.op with
  | «exists» | notExists | other text => rfl
  | eq | ne =>
    simp only [equalityPred, hread]
    cases equalityReading parseFloat o c with
    | error e => rfl
    | ok p =>
      simp only [Except.map, bind, Except.bind]
      split <;> rfl
  | gt | lt | gte | lte =>
    simp only [orderingPred, Operand.isInt_map]
    cases numArg parseFloat c c.value with
    | ok v => rfl
    | error e =>
      dsimp only
      split <;> rfl
  | contains | startsWith =>
    simp only [substringPred, Except.map]
    split <;> rfl
  | isIn | notIn =>
    simp only [inPred, Operand.isInt_map]
    cases inValues parseFloat o.isInt c c.values with
    | error e => rfl
    | ok vals =>
      cases o.isInt with
      | true | false =>
        simp only [Except.map, bind, Except.bind]
        split <;> rfl

mutual

/-- Where keys read what `ops` says, a filter has the predicate it has over `ops`. -/
theorem groupPred_map (hops : ∀ key o, res key = .ok o → o = (ops key).map f) :
    ∀ (g : Node) {p : Pred F Y}, groupPred parseFloat res g = .ok p →
      ∃ q, groupPred parseFloat (fun key => .ok (ops key)) g = .ok q ∧ p = q.map f
  | .mk _ _ _ _ mode filters, p, h => by
    rw [groupPred] at h
    obtain ⟨ps, hps, h⟩ := bind_ok.mp h
    cases h
    obtain ⟨qs, hqs, rfl⟩ := memberPreds_map hops filters hps
    exact ⟨.group mode qs, by rw [groupPred, hqs]; rfl, rfl⟩

theorem memberPreds_map (hops : ∀ key o, res key = .ok o → o = (ops key).map f) :
    ∀ (fs : List Node) {ps : List (Pred F Y)}, memberPreds parseFloat res fs = .ok ps →
      ∃ qs, memberPreds parseFloat (fun key => .ok (ops key)) fs = .ok qs ∧ ps = Pred.maps f qs
  | [], ps, h => by
    rw [memberPreds] at h
    cases h
    exact ⟨[], by rw [memberPreds], rfl⟩
  | c :: rest, ps, h => by
    rw [memberPreds] at h
    obtain ⟨p, hp, h⟩ := bind_ok.mp h
    obtain ⟨tail, htail, h⟩ := bind_ok.mp h
    cases h
    obtain ⟨qs, hqs, rfl⟩ := memberPreds_map hops rest htail
    obtain ⟨q, hq, rfl⟩ : ∃ q, (if c.filters.length > 0 then
          groupPred parseFloat (fun key => .ok (ops key)) c
        else conditionPred parseFloat (fun key => .ok (ops key)) c) = .ok q ∧ p = q.map f := by
      split at hp
      · next hgroup =>
        rw [if_pos hgroup]
        exact groupPred_map hops c hp
      · next hgroup =>
        rw [if_neg hgroup]
        obtain ⟨o, ho, hp⟩ := bind_ok.mp hp
        rw [hops c.key o ho, operandPred_map] at hp
        cases hq : operandPred parseFloat (ops c.key) c with
        | error e =>
          rw [hq] at hp
          cases hp
        | ok q =>
          rw [hq] at hp
          cases hp
          exact ⟨q, hq, rfl⟩
    exact ⟨q :: qs, by rw [memberPreds, hq, hqs]; rfl, rfl⟩

end

end natural

/-- A key reads what its template says. -/
theorem resolve_eq (fields : Dict String (Except CalcError (Term F))) (key : String)
    (o : Operand (Bound (Arg F)))
    (h : resolve (some (calcResolver (calcSet fields))) key = .ok o) :
    o = (readTemplate (calcSet fields) key).bound := by
  unfold resolve at h
  unfold readTemplate
  split at h
  · rename_i hb
    cases h
    rw [if_pos hb]
    unfold resolveBuiltinOrAttr
    cases explicitAttr key with
    | some rest => rfl
    | none => cases columns key <;> rfl
  · rename_i hb
    rw [if_neg hb]
    obtain ⟨res, hres, h⟩ := bind_ok.mp h
    rw [calcResolver] at hres
    split at hres
    · cases hres
    · rename_i found hfound
      cases hres
      cases res with
      | none =>
        cases h
        have hnot : (calcSet fields).has key = false := by
          rw [FieldSet.lookup] at hfound
          split at hfound
          · rename_i hhas
            simpa using hhas
          · -- a field of the set compiles to something or fails
            cases hc : (calcSet fields).compileField
                ((calcSet fields).resolver (calcSet fields).fields.entries.length [key]) key
                maxExpansion with
            | error e =>
              rw [hc] at hfound
              cases hfound
            | ok r =>
              rw [hc] at hfound
              cases hfound
        rw [if_neg (by simp [hnot])]
        rfl
      | some b =>
        cases h
        have hop : ∀ key b, (calcSet fields).operand key = .ok b → b = bound (valueTemplate key) := by
          rintro key b ⟨⟩
          exact valueSQL_eq key
        obtain ⟨hhas, rfl⟩ := lookup_template hop hfound
        rw [if_pos hhas]
        rfl

/-! ### Templates have no stray question marks -/

theorem clean_negateTemplate {ref tail : Template (Arg F)} (href : Clean ref) (htail : Clean tail) :
    Clean (negateTemplate ref tail) := by
  simp +decide [negateTemplate, href, htail]

theorem orderSQL_clean (op : Op) : placeholders (orderSQL op) = 0 := by
  cases op <;> rfl

theorem joinSQL_clean (mode : Mode) : placeholders (joinSQL mode) = 0 := by
  unfold joinSQL
  split <;> rfl

theorem clean_listTemplate (vals : List (Arg F)) : Clean (listTemplate vals) := by
  refine clean_joinTemplates "," rfl fun t ht => ?_
  obtain ⟨v, -, rfl⟩ := mem_map.mp ht
  exact clean_bind.mpr clean_nil

theorem Reading.clean_template (ref : Reading (CleanTemplate F)) : Clean ref.template := by
  cases ref with
  | text o => exact o.clean_textTemplate
  | number o => exact o.clean_numberTemplate

mutual

theorem Pred.clean_template : ∀ p : Pred F (CleanTemplate F), Clean p.template
  | .present o => o.clean_presentTemplate
  | .absent o => by simp +decide [Pred.template, o.clean_presentTemplate]
  | .equals ref v => by simp +decide [Pred.template, ref.clean_template]
  | .orders op ref v => by simp +decide [Pred.template, ref.clean_template, orderSQL_clean]
  | .contains o v | .startsWith o v => by simp +decide [Pred.template, o.clean_textTemplate]
  | .isIn ref vs => by simp +decide [Pred.template, ref.clean_template, clean_listTemplate]
  | .differs ref v => clean_negateTemplate ref.clean_template (by simp +decide)
  | .notIn ref vs => clean_negateTemplate ref.clean_template (by simp +decide [clean_listTemplate])
  | .group mode members => by
    simp +decide [Pred.template,
      clean_joinTemplates _ (joinSQL_clean mode) (Pred.clean_templates members)]

theorem Pred.clean_templates : ∀ ps : List (Pred F (CleanTemplate F)), ∀ t ∈ Pred.templates ps, Clean t
  | [] => forall_mem_nil _
  | p :: ps => forall_mem_cons.mpr ⟨p.clean_template, Pred.clean_templates ps⟩

end

end Spanbarn.Filter
