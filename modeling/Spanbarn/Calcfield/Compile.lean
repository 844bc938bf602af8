import Spanbarn.Filter.Operand
import Spanbarn.Schemes.Dict

/-! Calculated fields: a named expression over span columns, attributes and other fields.

    An expression compiles to SQL with bound literals. An identifier goes to a resolver; in a set of
    fields another field expands in place, and the stack of fields being expanded finds cycles. One
    budget counts the terms of the whole expansion:

        a = b + b      b = x * 2          a  ──▶  ((x * ?) + (x * ?))   [2, 2]        -/

namespace Spanbarn.Calcfield
open Spanbarn.Schemes Spanbarn.Filter

/-! ### Expressions -/

inductive UnaryOp where | not | neg
  deriving DecidableEq, Repr

/-- The binary operators as written; `=` and `==` are the same comparison, `!=` and `<>` too. -/
inductive BinaryOp where
  | add | sub | mul | div | mod
  | eq | eqEq | bangEq | ltGt | lt | le | gt | ge
  | and | or
  deriving DecidableEq, Repr

/-- The SQL operator; division is not in the table. -/
def binarySQL : BinaryOp → String
  | .add => "+"
  | .sub => "-"
  | .mul => "*"
  | .mod => "%"
  | .eq | .eqEq => "="
  | .bangEq | .ltGt => "<>"
  | .lt => "<"
  | .le => "<="
  | .gt => ">"
  | .ge => ">="
  | .and => "AND"
  | .or => "OR"
  | .div => ""

/-- A number literal: an integer when it fits, else a float. -/
inductive Num (F : Type) where
  | int (n : ℤ)
  | real (f : F)
  deriving DecidableEq, Repr

def Num.arg {F : Type} : Num F → Arg F
  | .int n => .int n
  | .real f => .real f

/-- A parsed expression. The parser gives each function the number of arguments it takes. -/
inductive Term (F : Type) where
  | number (n : Num F)
  | string (s : String)
  | ident (key : String)
  | unary (op : UnaryOp) (x : Term F)
  | binary (op : BinaryOp) (l r : Term F)
  | lower (x : Term F)
  | cond (c t e : Term F)
  | coalesce (args : List (Term F))
  | concat (args : List (Term F))

/-! ### Compiling -/

def maxExpansion : ℤ := 2000

/-- Why an expression does not compile. -/
inductive CalcError where
  | tooManyTerms
  | cycle (stack : List String) (key : String)
  | badField (name : String) (parseError : String)
  | operand (msg : String)
  deriving DecidableEq, Repr

/-- The message, after the text of `ErrInvalid`. -/
def CalcError.text : CalcError → String
  | .tooManyTerms =>
    cat ["invalid calculated field: the expression expands to more than ", toString maxExpansion,
      " terms once its calculated fields are included"]
  | .cycle stack key =>
    cat ["invalid calculated field: calculated fields refer to each other in a cycle: ",
      join " -> " stack, " -> ", key, "; write attributes.", key,
      " to read the attribute of the same name"]
  | .badField name parseError => cat ["invalid calculated field: ", name, ": ", parseError]
  | .operand msg => msg

variable {F : Type}

/-- The SQL an identifier reads, and the budget it leaves. -/
abbrev Resolver (F : Type) := String → ℤ → Except CalcError (Bound (Arg F) × ℤ)

/-- Take `n` terms from the budget. -/
def spend (n budget : ℤ) : Except CalcError ℤ :=
  if budget - n < 0 then .error .tooManyTerms else .ok (budget - n)

def unarySQL (op : UnaryOp) (x : Bound (Arg F)) : Bound (Arg F) :=
  match op with
  | .not => ⟨cat ["(NOT ", x.text, ")"], x.args⟩
  | .neg => ⟨cat ["(0 - ", x.text, ")"], x.args⟩

def binaryBound (op : BinaryOp) (l r : Bound (Arg F)) : Bound (Arg F) :=
  if op = .div then ⟨cat ["(CAST(", l.text, " AS REAL) / ", r.text, ")"], l.args ++ r.args⟩
  else ⟨cat ["(", l.text, " ", binarySQL op, " ", r.text, ")"], l.args ++ r.args⟩

/-- The SQL of several arguments: their texts, and all their values. -/
def coalesceSQL (parts : List (Bound (Arg F))) : Bound (Arg F) :=
  ⟨cat ["COALESCE(", join ", " (parts.map Bound.text), ")"], (parts.map Bound.args).flatten⟩

/-- Join the arguments as text; a missing one reads as empty. -/
def concatSQL (parts : List (Bound (Arg F))) : Bound (Arg F) :=
  ⟨cat ["(", join " || " (parts.map fun p => cat ["COALESCE(CAST(", p.text, " AS TEXT), '')"]), ")"],
    (parts.map Bound.args).flatten⟩

def condSQL (c t e : Bound (Arg F)) : Bound (Arg F) :=
  ⟨cat ["(CASE WHEN ", c.text, " THEN ", t.text, " ELSE ", e.text, " END)"],
    c.args ++ t.args ++ e.args⟩

mutual

/-- `compiler.node`. -/
def node (resolve : Resolver F) : Term F → ℤ → Except CalcError (Bound (Arg F) × ℤ)
  | t, budget => do
    let budget ← spend 1 budget
    match t with
    | .number n => .ok (⟨"?", [n.arg]⟩, budget)
    | .string s => .ok (⟨"?", [.text s]⟩, budget)
    | .ident key => resolve key budget
    | .unary op x => do
      let (x, budget) ← node resolve x budget
      .ok (unarySQL op x, budget)
    | .binary op l r => do
      let (l, budget) ← node resolve l budget
      let (r, budget) ← node resolve r budget
      .ok (binaryBound op l r, budget)
    | .lower x => do
      let (x, budget) ← node resolve x budget
      .ok (⟨cat ["lower(", x.text, ")"], x.args⟩, budget)
    | .cond c t e => do
      let (c, budget) ← node resolve c budget
      let (t, budget) ← node resolve t budget
      let (e, budget) ← node resolve e budget
      .ok (condSQL c t e, budget)
    | .coalesce args => do
      let (parts, budget) ← nodes resolve args budget
      .ok (coalesceSQL parts, budget)
    | .concat args => do
      let (parts, budget) ← nodes resolve args budget
      .ok (concatSQL parts, budget)

/-- The arguments of a call, in order. -/
def nodes (resolve : Resolver F) : List (Term F) → ℤ →
    Except CalcError (List (Bound (Arg F)) × ℤ)
  | [], budget => .ok ([], budget)
  | t :: ts, budget => do
    let (p, budget) ← node resolve t budget
    let (ps, budget) ← nodes resolve ts budget
    .ok (p :: ps, budget)

end

/-- `Expr.Compile`. -/
def compile (resolve : Resolver F) (t : Term F) : Except CalcError (Bound (Arg F)) :=
  (node resolve t maxExpansion).map Prod.fst

/-! ### Sets of fields -/

/-- The fields of one project: each with its expression, or with the error it failed to parse with.
    `operand` reads a span column or attribute; a builtin key is never a field. -/
structure FieldSet (F : Type) where
  fields : Dict String (Except CalcError (Term F))
  operand : String → Except CalcError (Bound (Arg F))
  builtin : String → Bool

/-- Parse every field. A field that fails keeps its error. -/
def newSet (parse : String → Except String (Term F)) (fields : List (String × String))
    (operand : String → Except CalcError (Bound (Arg F))) (builtin : String → Bool) : FieldSet F where
  fields := fields.foldl (fun d f =>
    match parse f.2, d.lookup f.1 with
    | .error msg, _ => d.insert f.1 (.error (.badField f.1 msg))
    | .ok _, some (.error e) => d.insert f.1 (.error e)
    | .ok t, _ => d.insert f.1 (.ok t)) ∅
  operand := operand
  builtin := builtin

namespace FieldSet

def has (s : FieldSet F) (name : String) : Bool := (s.fields.lookup name).isSome && !s.builtin name

/-- `Set.compile`: expand a field, or fail with its parse error. -/
def compileField (s : FieldSet F) (inner : Resolver F) (name : String) :
    ℤ → Except CalcError (Bound (Arg F) × ℤ) :=
  match s.fields.lookup name with
  | some (.ok t) => node inner t
  | some (.error e) => fun _ => .error e
  | none => fun _ => .error (.badField name "")

/-- Read an identifier for the field at the end of the stack. `depth` bounds the nesting of fields; when
    it runs out every field of the set is on the stack. -/
def resolver (s : FieldSet F) : ℕ → List String → Resolver F
  | depth, stack, key, budget =>
    if !s.has key then (s.operand key).map fun b => (b, budget)
    else if key ∈ stack then .error (.cycle stack key)
    else
      match depth with
      | 0 => .error (.cycle stack key)
      | depth + 1 => s.compileField (s.resolver depth (stack ++ [key])) key budget

/-- Compile a field; `none` when the set has no such field. -/
def lookup (s : FieldSet F) (name : String) : Except CalcError (Option (Bound (Arg F))) :=
  if !s.has name then .ok none
  else
    (s.compileField (s.resolver s.fields.entries.length [name]) name maxExpansion).map
      fun r => some r.1

end FieldSet

end Spanbarn.Calcfield
