import Spanbarn.Calcfield.Compile

/-! Span filters: the wire form, its validation, and its SQL.

    A filter is a group of conditions and of groups, one level deep. A condition names a key, an operator
    and values. It compiles to a predicate over the spans table in which every value is bound; a negated
    comparison reads its key twice, so that a missing key matches:

        url.path != /health   ⟶   (text IS NULL OR text <> ?)      -/

namespace Spanbarn.Filter
open Spanbarn.Schemes Spanbarn.Calcfield

/-! ### The wire form -/

/-- A comparison operator; `other` is any other text, empty where none is given. -/
inductive Op where
  | eq | ne | gt | lt | gte | lte | contains | startsWith | exists | notExists | isIn | notIn
  | other (text : String)
  deriving DecidableEq, Repr

/-- An operator on the wire. -/
def Op.text : Op → String
  | .eq => "="
  | .ne => "!="
  | .gt => ">"
  | .lt => "<"
  | .gte => ">="
  | .lte => "<="
  | .contains => "contains"
  | .startsWith => "starts-with"
  | .exists => "exists"
  | .notExists => "does-not-exist"
  | .isIn => "in"
  | .notIn => "not-in"
  | .other text => text

/-- How the members of a group are joined; `other` is any other text. -/
inductive Mode where
  | unset | and | or | other (text : String)
  deriving DecidableEq, Repr

/-- A condition (`key` set) or a group (`filters` set). -/
inductive Node where
  | mk (key : String) (op : Op) (value : String) (values : List String) (mode : Mode)
      (filters : List Node)

namespace Node

/-- The key a condition reads. -/
def key : Node → String
  | .mk key _ _ _ _ _ => key

/-- The operator of a condition. -/
def op : Node → Op
  | .mk _ op _ _ _ _ => op

/-- The value of a condition on one value. -/
def value : Node → String
  | .mk _ _ value _ _ _ => value

/-- The values of a condition on a list. -/
def values : Node → List String
  | .mk _ _ _ values _ _ => values

/-- How a group joins its members. -/
def mode : Node → Mode
  | .mk _ _ _ _ mode _ => mode

/-- The members of a group. -/
def filters : Node → List Node
  | .mk _ _ _ _ _ filters => filters

end Node

/-! ### Validation -/

/-- The conditions of a whole filter. -/
def maxConditions : ℕ := 32
/-- The values of one condition. -/
def maxValues : ℕ := 100
/-- The bytes of a key. -/
def maxKeyLen : ℕ := 200
/-- The bytes of a value. -/
def maxValueLen : ℕ := 1024

/-- Why a filter is refused. -/
inductive FilterError where
  | rootNotGroup
  | badMatch
  | tooManyConditions
  | nestedTooDeep
  | conditionAndGroup
  | emptyGroup
  | badKey
  | valueCount (op : Op) (key : String)
  | valueTooLong (key : String)
  | unknownOperator (op : Op) (key : String)
  | needsNumber (key : String) (op : Op) (value : String)
  | calculatedField (key : String) (cause : CalcError)
  deriving DecidableEq, Repr

/-- The message; `quote` is `strconv.Quote`. -/
def FilterError.text (quote : String → String) (e : FilterError) : String :=
  cat ["invalid filter: ", match e with
    | .rootNotGroup => "the root must be a group with a filters list"
    | .badMatch => cat ["match must be ", quote "and", " or ", quote "or"]
    | .tooManyConditions => cat ["at most ", toString maxConditions, " conditions"]
    | .nestedTooDeep => "groups nest one level deep at most"
    | .conditionAndGroup => "a node is either a condition or a group"
    | .emptyGroup => "a group needs at least one filter"
    | .badKey => cat ["condition needs a key of up to ", toString maxKeyLen,
        " characters without quotes or backslashes"]
    | .valueCount op key =>
      cat [op.text, " on ", quote key, " needs 1 to ", toString maxValues, " values"]
    | .valueTooLong key =>
      cat ["value for ", quote key, " is longer than ", toString maxValueLen, " bytes"]
    | .unknownOperator op key => cat ["unknown operator ", quote op.text, " on ", quote key]
    | .needsNumber key op value =>
      cat [quote key, " needs a number for ", op.text, ", got ", quote value]
    | .calculatedField key cause => cat ["calculated field ", quote key, ": ", cause.text]]

/-- Check the key of a condition, and as many values as its operator takes. -/
def validateCondition (c : Node) : Except FilterError Unit :=
  if c.key = "" ∨ maxKeyLen < c.key.utf8ByteSize ∨
      c.key.toList.any (fun ch => ch = '"' || ch = '\\' || ch = '\x00') = true then .error .badKey
  else
    match c.op with
    | .exists | .notExists => .ok ()
    | .isIn | .notIn =>
      if c.values = [] ∨ maxValues < c.values.length then .error (.valueCount c.op c.key)
      else if c.values.any (fun v => decide (maxValueLen < v.utf8ByteSize)) then
        .error (.valueTooLong c.key)
      else .ok ()
    | .other _ => .error (.unknownOperator c.op c.key)
    | _ => if maxValueLen < c.value.utf8ByteSize then .error (.valueTooLong c.key) else .ok ()

mutual

/-- Check a group; the conditions counted so far go in, those counted after it come out. -/
def validateGroup (depth : ℕ) : Node → ℕ → Except FilterError ℕ
  | .mk _ _ _ _ mode filters, count =>
    match mode with
    | .other _ => .error .badMatch
    | _ => validateMembers depth filters count

/-- Check the members of a group in turn; only the root has groups among them. -/
def validateMembers (depth : ℕ) : List Node → ℕ → Except FilterError ℕ
  | [], count => .ok count
  | c :: rest, count =>
    if c.filters.length > 0 ∨ c.mode ≠ .unset then
      if 1 ≤ depth then .error .nestedTooDeep
      else if c.key ≠ "" ∨ c.op ≠ .other "" then .error .conditionAndGroup
      else if c.filters.length = 0 then .error .emptyGroup
      else do
        let count ← validateGroup (depth + 1) c count
        validateMembers depth rest count
    else if maxConditions < count + 1 then .error .tooManyConditions
    else do
      validateCondition c
      validateMembers depth rest (count + 1)

end

/-- Check the root group. -/
def validate (e : Node) : Except FilterError Unit :=
  if e.key ≠ "" ∨ e.op ≠ .other "" then .error .rootNotGroup
  else (validateGroup 0 e 0).map fun _ => ()

/-! ### Compiling -/

variable {F : Type}

/-- The SQL of a key beyond columns and attributes; `none` for a key it does not know. -/
abbrev KeyResolver (F : Type) := String → Except FilterError (Option (Bound (Arg F)))

/-- What a key reads: built in first, then the resolver, else an attribute. -/
def resolve (r : Option (KeyResolver F)) (key : String) :
    Except FilterError (Operand (Bound (Arg F))) :=
  if isBuiltin key then .ok (resolveBuiltinOrAttr key)
  else
    match r with
    | none => .ok (.attr (attrPath key))
    | some r => do
      match ← r key with
      | some res => .ok (.field res)
      | none => .ok (.attr (attrPath key))

section condition
variable (parseFloat : String → Option F)

/-- A value that has to be a number. -/
def numArg (c : Node) (v : String) : Except FilterError F :=
  match parseFloat v with
  | some f => .ok f
  | none => .error (.needsNumber c.key c.op v)

/-- Wrap a comparison so a missing key also matches. -/
def negate (ref : Bound (Arg F)) (tail : String) (vals : List (Arg F)) : Bound (Arg F) :=
  ⟨cat ["(", ref.text, " IS NULL OR ", ref.text, " ", tail, ")"], ref.args ++ ref.args ++ vals⟩

/-- What an equality compares: an integer column, which is its own number, with a number, a calculated
    field with a number when the value is one, anything else as text. -/
def equalityOperands (o : Operand (Bound (Arg F))) (c : Node) :
    Except FilterError (Bound (Arg F) × Arg F) :=
  if o.isInt then do
    let f ← numArg parseFloat c c.value
    .ok (o.number, .real f)
  else
    match o with
    | .field _ =>
      match parseFloat c.value with
      | some f => .ok (o.number, .real f)
      | none => .ok (o.text, .text c.value)
    | _ => .ok (o.text, .text c.value)

/-- Equal, or not equal or missing. -/
def compileEquality (o : Operand (Bound (Arg F))) (c : Node) : Except FilterError (Bound (Arg F)) := do
  let (ref, val) ← equalityOperands parseFloat o c
  if c.op = .eq then .ok ⟨cat [ref.text, " = ", "?"], ref.args ++ [val]⟩
  else .ok (negate ref (cat ["<> ", "?"]) [val])

/-- The SQL of an ordering. -/
def orderSQL : Op → String
  | .gt => ">"
  | .lt => "<"
  | .gte => ">="
  | .lte => "<="
  | _ => ""

/-- An ordering compares numbers when the value is one, which an integer column asks for. -/
def compileOrdering (o : Operand (Bound (Arg F))) (c : Node) : Except FilterError (Bound (Arg F)) :=
  match numArg parseFloat c c.value with
  | .ok f => .ok ⟨cat [o.number.text, " ", orderSQL c.op, " ", "?"], o.number.args ++ [.real f]⟩
  | .error e =>
    if o.isInt then .error e
    else .ok ⟨cat [o.text.text, " ", orderSQL c.op, " ", "?"], o.text.args ++ [.text c.value]⟩

/-- Contains a text, or starts with it. -/
def compileSubstring (o : Operand (Bound (Arg F))) (c : Node) : Bound (Arg F) :=
  let ref := o.text
  if c.op = .contains then ⟨cat ["instr(", ref.text, ", ", "?", ") > 0"], ref.args ++ [.text c.value]⟩
  else
    ⟨cat ["substr(", ref.text, ", 1, ", "?", ") = ", "?"],
      ref.args ++ [.int c.value.length, .text c.value]⟩

/-- The values of a list: numbers for an integer column, else texts. -/
def inValues (isInt : Bool) (c : Node) : List String → Except FilterError (List (Arg F))
  | [] => .ok []
  | v :: vs =>
    if isInt then do
      let f ← numArg parseFloat c v
      let rest ← inValues isInt c vs
      .ok (.real f :: rest)
    else do
      let rest ← inValues isInt c vs
      .ok (.text v :: rest)

/-- Placeholders with commas between them. -/
def marks (n : ℕ) : String := join "," (List.replicate n "?")

/-- One of the values, or none of them or missing. -/
def compileIn (o : Operand (Bound (Arg F))) (c : Node) : Except FilterError (Bound (Arg F)) := do
  let ref := if o.isInt then o.number else o.text
  let vals ← inValues parseFloat o.isInt c c.values
  if c.op = .isIn then
    .ok ⟨cat [ref.text, " IN (", marks c.values.length, ")"], ref.args ++ vals⟩
  else .ok (negate ref (cat ["NOT IN (", marks c.values.length, ")"]) vals)

/-- The SQL of a condition, by its operator. -/
def compileCondition (r : Option (KeyResolver F)) (c : Node) : Except FilterError (Bound (Arg F)) := do
  let o ← resolve r c.key
  match c.op with
  | .exists => .ok o.present
  | .notExists => .ok ⟨cat ["NOT (", o.present.text, ")"], o.present.args⟩
  | .eq | .ne => compileEquality parseFloat o c
  | .gt | .lt | .gte | .lte => compileOrdering parseFloat o c
  | .contains | .startsWith => .ok (compileSubstring o c)
  | .isIn | .notIn => compileIn parseFloat o c
  | .other _ => .error (.unknownOperator c.op c.key)

/-- The text between the members of a group. -/
def joinSQL (mode : Mode) : String := if mode = .or then " OR " else " AND "

mutual

/-- The SQL of a group in brackets, the values bound in the order of the members. -/
def compileGroup (r : Option (KeyResolver F)) : Node → Except FilterError (Bound (Arg F))
  | .mk _ _ _ _ mode filters => do
    let parts ← compileMembers r filters
    .ok ⟨cat ["(", join (joinSQL mode) (parts.map Bound.text), ")"], (parts.map Bound.args).flatten⟩

/-- The SQL of the members in turn, up to the first that fails. -/
def compileMembers (r : Option (KeyResolver F)) : List Node → Except FilterError (List (Bound (Arg F)))
  | [] => .ok []
  | c :: rest => do
    let part ← (if c.filters.length > 0 then compileGroup r c else compileCondition parseFloat r c)
    let parts ← compileMembers r rest
    .ok (part :: parts)

end

/-- `CompileWith`: a missing or empty filter compiles to nothing. -/
def compileWith (r : Option (KeyResolver F)) (e : Option Node) : Except FilterError (Bound (Arg F)) :=
  match e with
  | none => .ok ⟨"", []⟩
  | some e =>
    if e.filters.length = 0 then .ok ⟨"", []⟩
    else do
      validate e
      compileGroup parseFloat r e

end condition

/-! ### Calculated fields as keys -/

/-- `calcresolve.NewSet`: the identifiers of a field follow the filter key rules. -/
def calcSet (fields : Dict String (Except CalcError (Term F))) : FieldSet F where
  fields := fields
  operand key := .ok (valueSQL key)
  builtin := isBuiltin

/-- `calcresolve.Resolver`. -/
def calcResolver (s : FieldSet F) : KeyResolver F := fun key =>
  match s.lookup key with
  | .error e => .error (.calculatedField key e)
  | .ok r => .ok r

end Spanbarn.Filter
