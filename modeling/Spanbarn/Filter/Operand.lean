import Mathlib.Data.Int.Notation
import Spanbarn.Schemes.Template

/-! What a filter key reads.

    A key names a span column, an attribute or a calculated field, and is read as a value, as text, as a
    number or for presence. Every reading is SQL text together with the values its placeholders are bound
    to; a path or the values of a calculated field are bound once per use:

        key ──resolve──▶ column c            c
                         attribute path      json_extract(attributes, ?)        [path]
                         calculated field    typeof(x) … x …                    [x's values, twice]

    Next to each reading stands the template it is meant to be in step with, for a calculated field given
    by a template whose only question marks are its placeholders. -/

namespace Spanbarn.Filter
open Spanbarn.Schemes

/-- A bound value; `F` is the type of floating-point numbers. -/
inductive Arg (F : Type) where
  | text (s : String)
  | int (n : ℤ)
  | real (f : F)
  deriving DecidableEq, Repr

inductive ColKind where | text | int
  deriving DecidableEq, Repr

/-- The span columns a key can name. -/
inductive Column where
  | service | name | kind | status | resource | traceID | spanID | parentSpanID
  | durationUs | startTimeUs | httpStatus
  deriving DecidableEq, Repr

def Column.sql : Column → String
  | .service => "service"
  | .name => "name"
  | .kind => "kind"
  | .status => "status"
  | .resource => "resource"
  | .traceID => "trace_id"
  | .spanID => "span_id"
  | .parentSpanID => "parent_span_id"
  | .durationUs => "duration_us"
  | .startTimeUs => "start_time_us"
  | .httpStatus => "http_status"

def Column.colKind : Column → ColKind
  | .durationUs | .startTimeUs | .httpStatus => .int
  | _ => .text

/-- The column of a key; two columns have a second name. -/
def columns : String → Option Column
  | "service" => some .service
  | "name" => some .name
  | "operation" => some .name
  | "kind" => some .kind
  | "status" => some .status
  | "resource" => some .resource
  | "trace_id" => some .traceID
  | "span_id" => some .spanID
  | "parent_span_id" => some .parentSpanID
  | "duration_us" => some .durationUs
  | "duration" => some .durationUs
  | "start_time_us" => some .startTimeUs
  | "http_status" => some .httpStatus
  | _ => none

/-- Forces a key to be read as an attribute. -/
def attrPrefix : String := "attributes."

/-- `strings.CutPrefix`. -/
def cutPrefix (p key : String) : Option String :=
  if p.toList.isPrefixOf key.toList then some (String.ofList (key.toList.drop p.length)) else none

/-- The attribute an explicit key names. -/
def explicitAttr (key : String) : Option String := (cutPrefix attrPrefix key).filter (· ≠ "")

def isColumn (key : String) : Bool := (columns key).isSome

/-- The key always names a span column or an explicit attribute. -/
def isBuiltin (key : String) : Bool := (explicitAttr key).isSome || isColumn key

/-- The JSON path of an attribute. -/
def attrPath (name : String) : String := "$.\"" ++ name ++ "\""

/-- What a key reads; `X` is the SQL of a calculated field. -/
inductive Operand (X : Type) where
  | column (c : Column)
  | attr (path : String)
  | field (x : X)
  deriving DecidableEq, Repr

def Operand.map {X Y : Type} (f : X → Y) : Operand X → Operand Y
  | .column c => .column c
  | .attr path => .attr path
  | .field x => .field (f x)

/-- `resolveBuiltinOrAttr`: the key without calculated fields. -/
def resolveBuiltinOrAttr {X : Type} (key : String) : Operand X :=
  match explicitAttr key with
  | some rest => .attr (attrPath rest)
  | none =>
    match columns key with
    | some c => .column c
    | none => .attr (attrPath key)

section readings
variable {F : Type}

/-- A span column or an attribute as a typed value. -/
def valueSQL (key : String) : Bound (Arg F) :=
  match resolveBuiltinOrAttr (X := Empty) key with
  | .column c => ⟨c.sql, []⟩
  | .attr path =>
    ⟨cat ["(CASE WHEN json_valid(attributes) THEN json_extract(attributes, ", "?", ") END)"],
      [.text path]⟩

namespace Operand

def isInt {X : Type} : Operand X → Bool
  | .column c => c.colKind = .int
  | _ => false

/-- The values of a calculated field, for two occurrences. -/
def twice (x : Bound (Arg F)) : List (Arg F) := x.args ++ x.args

/-- The key as text. -/
def text : Operand (Bound (Arg F)) → Bound (Arg F)
  | .field x =>
    ⟨cat ["(CASE typeof(", x.text, ") WHEN 'real' THEN printf('%.15g', ", x.text, ") ELSE CAST(",
      x.text, " AS TEXT) END)"], x.args ++ twice x⟩
  | .column c => if c.colKind = .int then ⟨cat ["CAST(", c.sql, " AS TEXT)"], []⟩ else ⟨c.sql, []⟩
  | .attr path =>
    ⟨cat ["(CASE WHEN NOT json_valid(attributes) THEN NULL ELSE CASE json_type(attributes, ", "?",
      ")\n\t\tWHEN 'true' THEN 'true' WHEN 'false' THEN 'false'\n\t\tELSE CAST(json_extract(attributes, ",
      "?", ") AS TEXT) END END)"], [.text path, .text path]⟩

/-- The key as a number. -/
def number : Operand (Bound (Arg F)) → Bound (Arg F)
  | .field x =>
    ⟨cat ["(CASE WHEN typeof(", x.text, ") IN ('integer','real') THEN ", x.text, " END)"], twice x⟩
  | .column c => ⟨c.sql, []⟩
  | .attr path =>
    ⟨cat ["(CASE WHEN json_valid(attributes) AND json_type(attributes, ", "?",
      ") IN ('integer','real')\n\t\tTHEN json_extract(attributes, ", "?", ") END)"],
      [.text path, .text path]⟩

/-- True when the key has a value. -/
def present : Operand (Bound (Arg F)) → Bound (Arg F)
  | .field x => ⟨cat ["(", x.text, ") IS NOT NULL"], x.args⟩
  | .attr path =>
    ⟨cat ["(CASE WHEN json_valid(attributes) THEN json_extract(attributes, ", "?", ") END) IS NOT NULL"],
      [.text path]⟩
  | .column c =>
    if c.colKind = .int then ⟨cat [c.sql, " IS NOT NULL"], []⟩
    else ⟨cat ["COALESCE(", c.sql, ", '') <> ''"], []⟩

end Operand

/-! ### The templates meant -/

/-- A template without stray question marks. -/
abbrev CleanTemplate (F : Type) := { t : Template (Arg F) // Clean t }

def CleanTemplate.bound (t : CleanTemplate F) : Bound (Arg F) := Schemes.bound t.1

def valueTemplate (key : String) : Template (Arg F) :=
  match resolveBuiltinOrAttr (X := Empty) key with
  | .column c => [.lit c.sql]
  | .attr path =>
    [.lit "(CASE WHEN json_valid(attributes) THEN json_extract(attributes, ", .bind (.text path),
      .lit ") END)"]

namespace Operand

/-- The operand with the text and values of its template. -/
def bound (o : Operand (CleanTemplate F)) : Operand (Bound (Arg F)) := o.map CleanTemplate.bound

def textTemplate : Operand (CleanTemplate F) → Template (Arg F)
  | .field ⟨t, _⟩ =>
    .lit "(CASE typeof(" :: t ++ .lit ") WHEN 'real' THEN printf('%.15g', " :: t ++
      .lit ") ELSE CAST(" :: t ++ [.lit " AS TEXT) END)"]
  | .column c => if c.colKind = .int then [.lit "CAST(", .lit c.sql, .lit " AS TEXT)"] else [.lit c.sql]
  | .attr path =>
    [.lit "(CASE WHEN NOT json_valid(attributes) THEN NULL ELSE CASE json_type(attributes, ",
      .bind (.text path),
      .lit ")\n\t\tWHEN 'true' THEN 'true' WHEN 'false' THEN 'false'\n\t\tELSE CAST(json_extract(attributes, ",
      .bind (.text path), .lit ") AS TEXT) END END)"]

def numberTemplate : Operand (CleanTemplate F) → Template (Arg F)
  | .field ⟨t, _⟩ =>
    .lit "(CASE WHEN typeof(" :: t ++ .lit ") IN ('integer','real') THEN " :: t ++ [.lit " END)"]
  | .column c => [.lit c.sql]
  | .attr path =>
    [.lit "(CASE WHEN json_valid(attributes) AND json_type(attributes, ", .bind (.text path),
      .lit ") IN ('integer','real')\n\t\tTHEN json_extract(attributes, ", .bind (.text path),
      .lit ") END)"]

def presentTemplate : Operand (CleanTemplate F) → Template (Arg F)
  | .field ⟨t, _⟩ => .lit "(" :: t ++ [.lit ") IS NOT NULL"]
  | .attr path =>
    [.lit "(CASE WHEN json_valid(attributes) THEN json_extract(attributes, ", .bind (.text path),
      .lit ") END) IS NOT NULL"]
  | .column c =>
    if c.colKind = .int then [.lit c.sql, .lit " IS NOT NULL"]
    else [.lit "COALESCE(", .lit c.sql, .lit ", '') <> ''"]

end Operand

/-! ### Readings are in step with their templates -/

theorem valueSQL_eq (key : String) : valueSQL (F := F) key = bound (valueTemplate key) := by
  unfold valueSQL valueTemplate
  cases resolveBuiltinOrAttr (X := Empty) key with
  | column c | attr path => simp [bound]
  | field x => exact x.elim

theorem Operand.text_eq (o : Operand (CleanTemplate F)) :
    o.bound.text = Schemes.bound o.textTemplate := by
  cases o with
  | column c =>
    by_cases hc : c.colKind = .int <;>
      simp [Operand.bound, Operand.map, Operand.text, textTemplate, Schemes.bound, hc]
  | attr path => simp [Operand.bound, Operand.map, Operand.text, textTemplate, Schemes.bound]
  | field t =>
    simp [Operand.bound, Operand.map, CleanTemplate.bound, Operand.text, textTemplate, Schemes.bound,
      twice]

theorem Operand.number_eq (o : Operand (CleanTemplate F)) :
    o.bound.number = Schemes.bound o.numberTemplate := by
  cases o <;>
    simp [Operand.bound, Operand.map, CleanTemplate.bound, number, numberTemplate, Schemes.bound, twice]

theorem Operand.present_eq (o : Operand (CleanTemplate F)) :
    o.bound.present = Schemes.bound o.presentTemplate := by
  cases o with
  | column c =>
    by_cases hc : c.colKind = .int <;>
      simp [Operand.bound, Operand.map, present, presentTemplate, Schemes.bound, hc]
  | attr path | field t =>
    simp [Operand.bound, Operand.map, CleanTemplate.bound, present, presentTemplate, Schemes.bound]

theorem Column.clean (c : Column) : placeholders c.sql = 0 := by
  cases c <;> simp [Column.sql, placeholders]

theorem clean_valueTemplate (key : String) : Clean (valueTemplate (F := F) key) := by
  unfold valueTemplate
  cases resolveBuiltinOrAttr (X := Empty) key with
  | column c => simp [c.clean]
  | attr path => simp +decide
  | field x => exact x.elim

theorem Operand.clean_textTemplate (o : Operand (CleanTemplate F)) : Clean o.textTemplate := by
  cases o with
  | column c => by_cases hc : c.colKind = .int <;> simp +decide [textTemplate, hc, c.clean]
  | attr path => simp +decide [textTemplate]
  | field t => simp +decide [textTemplate, t.2]

theorem Operand.clean_numberTemplate (o : Operand (CleanTemplate F)) : Clean o.numberTemplate := by
  cases o with
  | column c => simp [numberTemplate, c.clean]
  | attr path => simp +decide [numberTemplate]
  | field t => simp +decide [numberTemplate, t.2]

theorem Operand.clean_presentTemplate (o : Operand (CleanTemplate F)) : Clean o.presentTemplate := by
  cases o with
  | column c => by_cases hc : c.colKind = .int <;> simp +decide [presentTemplate, hc, c.clean]
  | attr path => simp +decide [presentTemplate]
  | field t => simp +decide [presentTemplate, t.2]

end readings

end Spanbarn.Filter
