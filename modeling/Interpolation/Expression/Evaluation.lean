import Interpolation.Expression.Error
import Interpolation.Expression.Tree
import Interpolation.Expression.Value

/-!
# Evaluating expressions

Evaluation reads a tree against a value, the root context at first. It gives a value and the names
that led to it, which errors report. The right side of a dot is evaluated against the value of the
left side; `||` and `&&` give one of their operands and evaluate the right one only if it is
needed.
-/

namespace Interpolation

/-- A value and the names that led to it. -/
structure Resolved where
  value : Value
  path : List String
  deriving Repr

namespace Tree

/-- The value of a name in a context that `path` led to. A name missing from the root is an error,
as is any name read from null or from nothing. -/
def evaluateName (name : String) (context : Value) (path : List String) :
    Except EvaluationError Resolved :=
  if context.isNullish then .error (.undefinedVariable path (some name))
  else match context.property? name with
    | some d => .ok ⟨.document d, path ++ [name]⟩
    | none =>
      if path.isEmpty then .error (.undefinedVariable [name] none)
      else .ok ⟨.undefined, path ++ [name]⟩

/-- The value of a tree in a context that `path` led to. -/
def evaluate : Tree → Value → List String → Except EvaluationError Resolved
  | name s, context, path => evaluateName s context path
  | quoted s, _, _ => .ok ⟨.literal s, []⟩
  | group t, context, path => t.evaluate context path
  | join .dot l r, context, path =>
    match l.evaluate context path with
    | .error e => .error e
    | .ok base => r.evaluate base.value base.path
  | join .or l r, context, path =>
    match l.evaluate context path with
    | .error e => .error e
    | .ok left => if left.value.isTruthy then .ok left else r.evaluate context path
  | join .and l r, context, path =>
    match l.evaluate context path with
    | .error e => .error e
    | .ok left => if left.value.isTruthy then r.evaluate context path else .ok left

end Tree

end Interpolation
