import Mathlib.Data.List.Basic

/-! Text with placeholders, and the values bound to them.

    A template is a text in which every placeholder carries the value meant for it. A program that builds
    the text and the list of values apart has to keep them in step with a template:

        template   "a = "  ‹x›  " OR b IN ("  ‹y›  ","  ‹z›  ")"
        text       "a = ? OR b IN (?,?)"            args  [x, y, z]

    Two templates with the same shape have the same text. -/

namespace Spanbarn.Schemes
open List

variable {A : Type*}

/-- A piece of text, or a placeholder with its value. -/
inductive Piece (A : Type*) where
  | lit (s : String)
  | bind (a : A)
  deriving DecidableEq, Repr

abbrev Template (A : Type*) := List (Piece A)

/-- Text and values built apart. -/
@[ext] structure Bound (A : Type*) where
  text : String
  args : List A
  deriving DecidableEq, Repr

/-- The text of a template: a question mark for every placeholder. -/
def textOf : Template A → String
  | [] => ""
  | .lit s :: t => s ++ textOf t
  | .bind _ :: t => "?" ++ textOf t

/-- The values of a template, in the order of their placeholders. -/
def argsOf : Template A → List A
  | [] => []
  | .lit _ :: t => argsOf t
  | .bind a :: t => a :: argsOf t

/-- Text and values of a template. -/
def bound (t : Template A) : Bound A := ⟨textOf t, argsOf t⟩

/-- The placeholders of a text. -/
def placeholders (s : String) : ℕ := s.toList.count '?'

/-- The only question marks are the placeholders. -/
def Clean (t : Template A) : Prop := ∀ s, Piece.lit s ∈ t → placeholders s = 0

@[simp] theorem textOf_append : ∀ a b : Template A, textOf (a ++ b) = textOf a ++ textOf b
  | [], b => (String.empty_append).symm
  | .lit s :: a, b => by
    rw [cons_append, textOf, textOf, textOf_append a b, String.append_assoc]
  | .bind _ :: a, b => by
    rw [cons_append, textOf, textOf, textOf_append a b, String.append_assoc]

@[simp] theorem argsOf_append : ∀ a b : Template A, argsOf (a ++ b) = argsOf a ++ argsOf b
  | [], _ => rfl
  | .lit _ :: a, b => by rw [cons_append, argsOf, argsOf, argsOf_append a b]
  | .bind _ :: a, b => by
    rw [cons_append, argsOf, argsOf, argsOf_append a b, cons_append]

theorem placeholders_append (a b : String) :
    placeholders (a ++ b) = placeholders a + placeholders b := by
  rw [placeholders, String.toList_append, count_append]
  rfl

@[simp] theorem clean_append {a b : Template A} : Clean (a ++ b) ↔ Clean a ∧ Clean b := by
  constructor
  · intro h
    exact ⟨fun s hs => h s (mem_append_left _ hs), fun s hs => h s (mem_append_right _ hs)⟩
  · rintro ⟨ha, hb⟩ s hs
    rcases mem_append.mp hs with h | h
    · exact ha s h
    · exact hb s h

@[simp] theorem clean_nil : Clean ([] : Template A) := fun _ h => absurd h (not_mem_nil)

@[simp] theorem clean_lit {s : String} {t : Template A} :
    Clean (.lit s :: t) ↔ placeholders s = 0 ∧ Clean t := by
  constructor
  · intro h
    exact ⟨h s mem_cons_self, fun r hr => h r (mem_cons_of_mem _ hr)⟩
  · rintro ⟨hs, ht⟩ r hr
    rcases mem_cons.mp hr with h | h
    · cases h
      exact hs
    · exact ht r h

@[simp] theorem clean_bind {a : A} {t : Template A} : Clean (.bind a :: t) ↔ Clean t := by
  constructor
  · exact fun h r hr => h r (mem_cons_of_mem _ hr)
  · intro ht r hr
    rcases mem_cons.mp hr with h | h
    · cases h
    · exact ht r h

/-- A clean template has as many placeholders as values. -/
theorem placeholders_textOf : ∀ {t : Template A}, Clean t →
    placeholders (textOf t) = (argsOf t).length
  | [], _ => rfl
  | .lit s :: t, h => by
    obtain ⟨hs, ht⟩ := clean_lit.mp h
    rw [textOf, placeholders_append, hs, Nat.zero_add, placeholders_textOf ht, argsOf]
  | .bind _ :: t, h => by
    rw [textOf, placeholders_append, placeholders_textOf (clean_bind.mp h), argsOf, length_cons,
      Nat.add_comm]
    rfl

/-- In a clean template every placeholder has its value: when `i` placeholders come before it, it is the
    `i`-th of the text and its value the `i`-th of the values. -/
theorem placeholder_bound {t pre post : Template A} {a : A} (h : Clean t)
    (ht : t = pre ++ .bind a :: post) :
    textOf t = textOf pre ++ "?" ++ textOf post ∧
      (argsOf t)[placeholders (textOf pre)]? = some a := by
  subst ht
  obtain ⟨hpre, -⟩ := clean_append.mp h
  refine ⟨?_, ?_⟩
  · rw [textOf_append, textOf, String.append_assoc]
  · rw [argsOf_append, argsOf, placeholders_textOf hpre, List.getElem?_append_right (Nat.le_refl _),
      Nat.sub_self]
    rfl

/-! ### Joining -/

/-- Texts one after the other. -/
def cat : List String → String
  | [] => ""
  | s :: rest => s ++ cat rest

attribute [simp] textOf argsOf cat

/-- `strings.Join`. -/
def join (sep : String) : List String → String
  | [] => ""
  | [s] => s
  | s :: r :: rest => s ++ sep ++ join sep (r :: rest)

/-- The templates one after the other, with a text between them. -/
def joinTemplates (sep : String) : List (Template A) → Template A
  | [] => []
  | [t] => t
  | t :: u :: rest => t ++ .lit sep :: joinTemplates sep (u :: rest)

@[simp] theorem textOf_joinTemplates (sep : String) : ∀ ts : List (Template A),
    textOf (joinTemplates sep ts) = join sep (ts.map textOf)
  | [] => rfl
  | [t] => rfl
  | t :: u :: rest => by
    have ih := textOf_joinTemplates sep (u :: rest)
    rw [joinTemplates, textOf_append, textOf, ih, ← String.append_assoc]
    rfl

@[simp] theorem argsOf_joinTemplates (sep : String) : ∀ ts : List (Template A),
    argsOf (joinTemplates sep ts) = (ts.map argsOf).flatten
  | [] => rfl
  | [t] => (append_nil _).symm
  | t :: u :: rest => by
    have ih := argsOf_joinTemplates sep (u :: rest)
    rw [joinTemplates, argsOf_append, argsOf, ih]
    rfl

theorem clean_joinTemplates (sep : String) (hsep : placeholders sep = 0) :
    ∀ {ts : List (Template A)}, (∀ t ∈ ts, Clean t) → Clean (joinTemplates sep ts)
  | [], _ => clean_nil
  | [t], h => h t mem_cons_self
  | t :: u :: rest, h => by
    obtain ⟨ht, hrest⟩ := forall_mem_cons.mp h
    exact clean_append.mpr ⟨ht, clean_lit.mpr ⟨hsep, clean_joinTemplates sep hsep hrest⟩⟩

end Spanbarn.Schemes
