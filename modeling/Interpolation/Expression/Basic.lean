import Interpolation.Expression.Evaluation
import Interpolation.Expression.Grammar
import Interpolation.Expression.Names

/-!
# Expressions

An expression is read once, from a text of its own or from a part of a larger one, and then
evaluated against any number of contexts. It keeps the text that it was read from, which its errors
quote.
-/

namespace Interpolation

/-- A tree and the text that it was read from. -/
structure Expression where
  tree : Tree
  source : String
  deriving DecidableEq, Repr

namespace Expression

/-- Reads a text that stands at byte `offset` of its surroundings. -/
def ofText (text : List Char) (offset : Nat) : Except SyntaxError Expression :=
  match Tree.read text offset with
  | .error e => .error e
  | .ok tree => .ok ⟨tree, String.ofList text⟩

/-- Reads a whole string. -/
def ofString (source : String) : Except SyntaxError Expression := ofText source.toList 0

/-- Reads the bytes from `start` to `stop` of a string. -/
def ofSpan (source : String) (start stop : Nat) : Except SyntaxError Expression :=
  match Text.slice? start stop source.toList with
  | none => .error (.invalidSpan start stop)
  | some text => ofText text start

/-- The value in a context, with the names that led to it. -/
def resolve (e : Expression) (context : Document) : Except EvaluationError Resolved :=
  e.tree.evaluate (.document context) []

/-- The text of the value in a context. -/
def render (e : Expression) (context : Document) : Except EvaluationError String :=
  match e.resolve context with
  | .error err => .error err
  | .ok r =>
    if r.value.isNullish then .error (.notResolved e.source)
    else match r.value.text? with
      | none => .error (.notSerializable e.source)
      | some s => .ok s

/-- The different names right below a prefix, in the order in which they are first read. -/
def names (e : Expression) (segments : List String) : List String :=
  distinct (e.tree.names segments)

end Expression

end Interpolation
