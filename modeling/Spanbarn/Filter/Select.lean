import Spanbarn.Filter.Compile

/-! What a compiled filter selects.

    The SQL of a filter is the text of a predicate over the columns, attributes and calculated fields of
    a span; SQLite reads it with NULL for what is missing, and a span is selected when it is true:

        filter ──compile──▶ SQL and values
          │                   ▲
          └───▶ predicate ────┘ sql             predicate, span ──holds──▶ selected

    The readings differ: the text of a key is a label, its number is what numbers are compared with, and
    a key may be present and still read as the empty text. A predicate is over operands of any kind:
    those of a compiled filter carry the SQL of a calculated field, those of a template its template. -/

namespace Spanbarn.Filter
open Spanbarn.Schemes

/-! ### Values -/

/-- A value of SQLite; `F` is the type of floating-point numbers. -/
inductive Value (F : Type) where
  | null
  | int (n : ℤ)
  | real (f : F)
  | text (s : String)
  deriving DecidableEq, Repr

/-- The JSON value of an attribute; an array or an object is kept as its text. -/
inductive Json (F : Type) where
  | null
  | bool (b : Bool)
  | int (n : ℤ)
  | real (f : F)
  | str (s : String)
  | nested (text : String)
  deriving DecidableEq, Repr

/-- What SQLite does with floating-point numbers: how they are cast to text and printed, and how they
    compare. A NaN is bound as NULL. -/
structure Sqlite (F : Type) where
  castReal : F → String
  castReal_ne : ∀ f, castReal f ≠ ""
  printf15 : F → String
  printf15_ne : ∀ f, printf15 f ≠ ""
  isNaN : F → Bool
  cmpReal : F → F → Ordering
  cmpInt : ℤ → F → Ordering

/-- `json_extract` of a value. -/
def Json.extract {F : Type} : Json F → Value F
  | .null => .null
  | .bool b => .int (if b then 1 else 0)
  | .int n => .int n
  | .real f => .real f
  | .str s => .text s
  | .nested text => .text text

/-- A row of `spans`. Integer columns have an affinity and no type, so what a generated one extracts may
    be anything. `attributes` is `none` when the text is not JSON; `field` is what the SQL of a
    calculated field gives on the row. -/
structure Span (F : Type) where
  texts : Column → Option String
  numbers : Column → Value F
  attributes : Option (String → Option (Json F))
  field : Bound (Arg F) → Value F

section readings
variable {F : Type}

/-- `CAST(x AS TEXT)`. -/
def Sqlite.cast (sq : Sqlite F) : Value F → Option String
  | .null => none
  | .int n => some (toString n)
  | .real f => some (sq.castReal f)
  | .text s => some s

/-- The text of a calculated field. -/
def Sqlite.print (sq : Sqlite F) : Value F → Option String
  | .real f => some (sq.printf15 f)
  | x => sq.cast x

def Value.ofText : Option String → Value F
  | none => .null
  | some s => .text s

namespace Span

def column (s : Span F) (c : Column) : Value F :=
  if c.colKind = .int then s.numbers c else .ofText (s.texts c)

/-- The JSON value at a path. -/
def json (s : Span F) (path : String) : Option (Json F) := s.attributes.bind fun read => read path

/-- `json_extract`, NULL when the path or the JSON is missing. -/
def extract (s : Span F) (path : String) : Value F := ((s.json path).map Json.extract).getD .null

end Span

namespace Operand
variable (sq : Sqlite F) (s : Span F)

/-- The key as a typed value. -/
def value : Operand (Bound (Arg F)) → Value F
  | .column c => s.column c
  | .attr path => s.extract path
  | .field x => s.field x

/-- What `text` reads. -/
def textValue : Operand (Bound (Arg F)) → Option String
  | .field x => sq.print (s.field x)
  | .column c => if c.colKind = .int then sq.cast (s.numbers c) else s.texts c
  | .attr path =>
    match s.json path with
    | some (.bool b) => some (if b then "true" else "false")
    | _ => sq.cast (s.extract path)

/-- What `number` reads. -/
def numberValue : Operand (Bound (Arg F)) → Value F
  | .field x =>
    match s.field x with
    | .int n => .int n
    | .real f => .real f
    | _ => .null
  | .column c => s.column c
  | .attr path =>
    match s.json path with
    | some (.int n) => .int n
    | some (.real f) => .real f
    | _ => .null

/-- What `present` says. -/
def isPresent : Operand (Bound (Arg F)) → Bool
  | .field x => !decide (s.field x matches .null)
  | .attr path => !decide (s.extract path matches .null)
  | .column c =>
    if c.colKind = .int then !decide (s.numbers c matches .null)
    else !decide ((s.texts c).getD "" = "")

end Operand

/-- One of the two readings a comparison uses. -/
inductive Reading (X : Type) where
  | text (o : Operand X)
  | number (o : Operand X)

namespace Reading

def sql : Reading (Bound (Arg F)) → Bound (Arg F)
  | .text o => o.text
  | .number o => o.number

def value (sq : Sqlite F) (s : Span F) : Reading (Bound (Arg F)) → Value F
  | .text o => .ofText (o.textValue sq s)
  | .number o => o.numberValue s

/-- A column of text turns the number it is compared with into text. -/
def hasTextAffinity {X : Type} : Reading X → Bool
  | .text (.column _) => true
  | .number (.column c) => c.colKind = .text
  | _ => false

/-- The value of a bound argument next to the reading. -/
def bind {X : Type} (sq : Sqlite F) (ref : Reading X) : Arg F → Value F
  | .text t => .text t
  | .int n => .int n
  | .real f =>
    if sq.isNaN f then .null
    else if ref.hasTextAffinity then .text (sq.castReal f)
    else .real f

end Reading

/-- SQLite's comparison: NULL with NULL, numbers before texts. -/
def Sqlite.compare (sq : Sqlite F) : Value F → Value F → Option Ordering
  | .null, _ => none
  | _, .null => none
  | .int a, .int b => some (Ord.compare a b)
  | .int a, .real b => some (sq.cmpInt a b)
  | .real a, .int b => some (sq.cmpInt b a).swap
  | .real a, .real b => some (sq.cmpReal a b)
  | .text a, .text b => some (Ord.compare a b)
  | .text _, _ => some .gt
  | _, .text _ => some .lt

/-! ### Predicates -/

/-- A condition as SQL says it. -/
inductive Pred (F X : Type) where
  | present (o : Operand X)
  | absent (o : Operand X)
  | equals (ref : Reading X) (v : Arg F)
  | differs (ref : Reading X) (v : Arg F)
  | orders (op : Op) (ref : Reading X) (v : Arg F)
  | contains (o : Operand X) (v : String)
  | startsWith (o : Operand X) (v : String)
  | isIn (ref : Reading X) (vs : List (Arg F))
  | notIn (ref : Reading X) (vs : List (Arg F))
  | group (mode : Mode) (members : List (Pred F X))

/-- A condition whose calculated fields are compiled. -/
abbrev SqlPred (F : Type) := Pred F (Bound (Arg F))

namespace Pred

mutual

/-- The text and values of a predicate. -/
def sql : SqlPred F → Bound (Arg F)
  | .present o => o.present
  | .absent o => ⟨cat ["NOT (", o.present.text, ")"], o.present.args⟩
  | .equals ref v => ⟨cat [ref.sql.text, " = ", "?"], ref.sql.args ++ [v]⟩
  | .differs ref v => negate ref.sql (cat ["<> ", "?"]) [v]
  | .orders op ref v => ⟨cat [ref.sql.text, " ", orderSQL op, " ", "?"], ref.sql.args ++ [v]⟩
  | .contains o v => ⟨cat ["instr(", o.text.text, ", ", "?", ") > 0"], o.text.args ++ [.text v]⟩
  | .startsWith o v =>
    ⟨cat ["substr(", o.text.text, ", 1, ", "?", ") = ", "?"], o.text.args ++ [.int v.length, .text v]⟩
  | .isIn ref vs => ⟨cat [ref.sql.text, " IN (", marks vs.length, ")"], ref.sql.args ++ vs⟩
  | .notIn ref vs => negate ref.sql (cat ["NOT IN (", marks vs.length, ")"]) vs
  | .group mode members =>
    ⟨cat ["(", join (joinSQL mode) ((sqls members).map Bound.text), ")"],
      ((sqls members).map Bound.args).flatten⟩

def sqls : List (SqlPred F) → List (Bound (Arg F))
  | [] => []
  | p :: ps => p.sql :: sqls ps

end

/-- The outcome of a comparison that makes an ordering true. -/
def orderHolds : Op → Ordering → Bool
  | .gt, o => o = .gt
  | .lt, o => o = .lt
  | .gte, o => o ≠ .lt
  | .lte, o => o ≠ .gt
  | _, _ => false

section holds
variable (sq : Sqlite F) (s : Span F)

/-- The comparison of a reading with a bound value. -/
def against (ref : Reading (Bound (Arg F))) (v : Arg F) : Option Ordering :=
  sq.compare (ref.value sq s) (ref.bind sq v)

mutual

/-- The predicate is true of the span, neither false nor NULL. -/
def holds : SqlPred F → Bool
  | .present o => o.isPresent s
  | .absent o => !o.isPresent s
  | .equals ref v => against sq s ref v = some .eq
  | .differs ref v => (ref.value sq s matches .null) || (against sq s ref v).any (· ≠ .eq)
  | .orders op ref v => (against sq s ref v).any (orderHolds op)
  | .contains o v => (o.textValue sq s).any fun t => t.toList.tails.any v.toList.isPrefixOf
  | .startsWith o v => (o.textValue sq s).any fun t => t.toList.take v.length = v.toList
  | .isIn ref vs => vs.any fun v => against sq s ref v = some .eq
  | .notIn ref vs =>
    (ref.value sq s matches .null) || vs.all fun v => (against sq s ref v).any (· ≠ .eq)
  | .group mode members => if mode = .or then anyHolds members else allHold members

def anyHolds : List (SqlPred F) → Bool
  | [] => false
  | p :: ps => p.holds || anyHolds ps

def allHold : List (SqlPred F) → Bool
  | [] => true
  | p :: ps => p.holds && allHold ps

end

end holds

end Pred

/-! ### The predicate of a filter -/

section predicate
variable {X : Type} (parseFloat : String → Option F)

/-- What an equality compares. -/
def equalityReading (o : Operand X) (c : Node) : Except FilterError (Reading X × Arg F) :=
  if o.isInt then do
    let f ← numArg parseFloat c c.value
    .ok (.number o, .real f)
  else
    match o with
    | .field _ =>
      match parseFloat c.value with
      | some f => .ok (.number o, .real f)
      | none => .ok (.text o, .text c.value)
    | _ => .ok (.text o, .text c.value)

def equalityPred (o : Operand X) (c : Node) : Except FilterError (Pred F X) := do
  let (ref, v) ← equalityReading parseFloat o c
  .ok (if c.op = .eq then .equals ref v else .differs ref v)

def orderingPred (o : Operand X) (c : Node) : Except FilterError (Pred F X) :=
  match numArg parseFloat c c.value with
  | .ok f => .ok (.orders c.op (.number o) (.real f))
  | .error e => if o.isInt then .error e else .ok (.orders c.op (.text o) (.text c.value))

def substringPred (o : Operand X) (c : Node) : Pred F X :=
  if c.op = .contains then .contains o c.value else .startsWith o c.value

def inPred (o : Operand X) (c : Node) : Except FilterError (Pred F X) := do
  let vals ← inValues parseFloat o.isInt c c.values
  let ref := if o.isInt then .number o else .text o
  .ok (if c.op = .isIn then .isIn ref vals else .notIn ref vals)

def operandPred (o : Operand X) (c : Node) : Except FilterError (Pred F X) :=
  match c.op with
  | .exists => .ok (.present o)
  | .notExists => .ok (.absent o)
  | .eq | .ne => equalityPred parseFloat o c
  | .gt | .lt | .gte | .lte => orderingPred parseFloat o c
  | .contains | .startsWith => .ok (substringPred o c)
  | .isIn | .notIn => inPred parseFloat o c
  | .other _ => .error (.unknownOperator c.op c.key)

/-- The predicate of a condition, given what keys read. -/
def conditionPred (ops : String → Except FilterError (Operand X)) (c : Node) :
    Except FilterError (Pred F X) := do
  let o ← ops c.key
  operandPred parseFloat o c

mutual

def groupPred (ops : String → Except FilterError (Operand X)) : Node → Except FilterError (Pred F X)
  | .mk _ _ _ _ mode filters => do
    let members ← memberPreds ops filters
    .ok (.group mode members)

def memberPreds (ops : String → Except FilterError (Operand X)) :
    List Node → Except FilterError (List (Pred F X))
  | [] => .ok []
  | c :: rest => do
    let p ← (if c.filters.length > 0 then groupPred ops c else conditionPred parseFloat ops c)
    let ps ← memberPreds ops rest
    .ok (p :: ps)

end

/-- The spans a filter selects; a missing or empty filter selects all. -/
def selectWith (sq : Sqlite F) (r : Option (KeyResolver F)) (e : Option Node) :
    Except FilterError (Span F → Bool) :=
  match e with
  | none => .ok fun _ => true
  | some e =>
    if e.filters.length = 0 then .ok fun _ => true
    else do
      validate e
      let p ← groupPred parseFloat (resolve r) e
      .ok fun s => p.holds sq s

end predicate

/-! ### The compiled SQL is the text of the predicate -/

section sql
variable {parseFloat : String → Option F} {r : Option (KeyResolver F)}

theorem inValues_length {isInt : Bool} {c : Node} : ∀ {vs : List String} {vals : List (Arg F)},
    inValues parseFloat isInt c vs = .ok vals → vals.length = vs.length
  | [], vals, h => by
    cases h
    rfl
  | v :: vs, vals, h => by
    simp only [inValues] at h
    split at h
    · cases hf : numArg parseFloat c v with
      | error e => simp [hf, bind, Except.bind] at h
      | ok f =>
        cases hrest : inValues parseFloat isInt c vs with
        | error e => simp [hf, hrest, bind, Except.bind] at h
        | ok rest =>
          simp only [hf, hrest, bind, Except.bind, Except.ok.injEq] at h
          rw [← h, List.length_cons, List.length_cons, inValues_length hrest]
    · cases hrest : inValues parseFloat isInt c vs with
      | error e => simp [hrest, bind, Except.bind] at h
      | ok rest =>
        simp only [hrest, bind, Except.bind, Except.ok.injEq] at h
        rw [← h, List.length_cons, List.length_cons, inValues_length hrest]

theorem compileEquality_select (o : Operand (Bound (Arg F))) (c : Node) :
    compileEquality parseFloat o c = (equalityPred parseFloat o c).map Pred.sql := by
  have hread : equalityOperands parseFloat o c =
      (equalityReading parseFloat o c).map fun p => (p.1.sql, p.2) := by
    unfold equalityOperands equalityReading
    split
    · cases numArg parseFloat c c.value <;> rfl
    · cases o with
      | field x =>
        dsimp only
        cases parseFloat c.value <;> rfl
      | column c => rfl
      | attr path => rfl
  unfold compileEquality equalityPred
  rw [hread]
  cases equalityReading parseFloat o c with
  | error e => rfl
  | ok p =>
    simp only [Except.map, bind, Except.bind]
    split <;> rfl

theorem compileOrdering_select (o : Operand (Bound (Arg F))) (c : Node) :
    compileOrdering parseFloat o c = (orderingPred parseFloat o c).map Pred.sql := by
  unfold compileOrdering orderingPred
  cases numArg parseFloat c c.value with
  | ok f => rfl
  | error e =>
    dsimp only
    split <;> rfl

theorem compileIn_select (o : Operand (Bound (Arg F))) (c : Node) :
    compileIn parseFloat o c = (inPred parseFloat o c).map Pred.sql := by
  unfold compileIn inPred
  cases hvals : inValues parseFloat o.isInt c c.values with
  | error e => rfl
  | ok vals =>
    have hlen := inValues_length hvals
    simp only [bind, Except.bind, Except.map]
    cases hint : o.isInt with
    | true =>
      simp only [if_true]
      split <;> simp [Pred.sql, Reading.sql, hlen]
    | false =>
      simp only [Bool.false_eq_true, if_false]
      split <;> simp [Pred.sql, Reading.sql, hlen]

theorem compileCondition_select (c : Node) :
    compileCondition parseFloat r c = (conditionPred parseFloat (resolve r) c).map Pred.sql := by
  unfold compileCondition conditionPred
  cases resolve r c.key with
  | error e => rfl
  | ok o =>
    simp only [bind, Except.bind, operandPred]
    cases c.op with
    | «exists» => rfl
    | notExists => rfl
    | eq | ne => exact compileEquality_select o c
    | gt | lt | gte | lte => exact compileOrdering_select o c
    | contains | startsWith =>
      simp only [Except.map, substringPred, compileSubstring]
      split <;> rfl
    | isIn | notIn => exact compileIn_select o c
    | other text => rfl

theorem Pred.sqls_eq_map : ∀ ps : List (SqlPred F), Pred.sqls ps = ps.map Pred.sql
  | [] => rfl
  | p :: ps => by rw [Pred.sqls, Pred.sqls_eq_map ps, List.map_cons]

mutual

theorem compileGroup_select : ∀ e : Node,
    compileGroup parseFloat r e = (groupPred parseFloat (resolve r) e).map Pred.sql
  | .mk _ _ _ _ mode filters => by
    rw [compileGroup, groupPred, compileMembers_select filters]
    cases memberPreds parseFloat (resolve r) filters with
    | error e => rfl
    | ok ps => simp [Except.map, bind, Except.bind, Pred.sql, Pred.sqls_eq_map]

theorem compileMembers_select : ∀ fs : List Node,
    compileMembers parseFloat r fs = (memberPreds parseFloat (resolve r) fs).map (List.map Pred.sql)
  | [] => rfl
  | c :: rest => by
    rw [compileMembers, memberPreds, compileMembers_select rest]
    have hpart : (if c.filters.length > 0 then compileGroup parseFloat r c
          else compileCondition parseFloat r c) =
        (if c.filters.length > 0 then groupPred parseFloat (resolve r) c
          else conditionPred parseFloat (resolve r) c).map
          Pred.sql := by
      split
      · exact compileGroup_select c
      · exact compileCondition_select c
    rw [hpart]
    cases (if c.filters.length > 0 then groupPred parseFloat (resolve r) c
        else conditionPred parseFloat (resolve r) c) with
    | error e => rfl
    | ok p => cases memberPreds parseFloat (resolve r) rest <;> rfl

end

end sql

/-- `service = api` and `duration_us > 5`. -/
def slowApi : Node := .mk "" (.other "") "" [] .and
  [.mk "service" .eq "api" [] .unset [], .mk "duration_us" .gt "5" [] .unset []]

/-- A parser that knows two numbers. -/
def digits (s : String) : Option ℕ := if s = "5" then some 5 else if s = "7" then some 7 else none

end readings

end Spanbarn.Filter
