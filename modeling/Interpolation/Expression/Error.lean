/-!
# What can be wrong with an expression

Two families: an ill-formed text, which always comes with a byte position in the surrounding text,
and a well-formed expression that has no value in a context.
-/

namespace Interpolation

/-- Why a text is not an expression. Positions are bytes of the surrounding text. -/
inductive SyntaxError where
  /-- `token` cannot stand at `position`. -/
  | unexpectedToken (token : String) (position : Nat)
  /-- There is no expression at all from `position` on. -/
  | expressionExpected (position : Nat)
  /-- The bytes from `start` to `stop` are no part of the text. -/
  | invalidSpan (start stop : Nat)
  deriving DecidableEq, Repr

namespace SyntaxError

/-- The byte of the surrounding text that the error points at. -/
def position : SyntaxError → Nat
  | unexpectedToken _ p => p
  | expressionExpected p => p
  | invalidSpan start _ => start

/-- The wording of the error. -/
def message : SyntaxError → String
  | unexpectedToken token p => "Unexpected token '" ++ token ++ "' [" ++ p.repr ++ "]"
  | expressionExpected p => "Expression expected [" ++ p.repr ++ "]"
  | invalidSpan start stop =>
    "Span " ++ start.repr ++ ".." ++ stop.repr ++
      " does not lie on character boundaries of the input [" ++ start.repr ++ "]"

end SyntaxError

/-- Why a well-formed expression has no value, or no text for its value. -/
inductive EvaluationError where
  /-- Without a child: a root name that the context lacks. With one: the child was read from a
  path that led to null or to nothing. -/
  | undefinedVariable (path : List String) (child : Option String)
  /-- The value is null or absent. -/
  | notResolved (expression : String)
  /-- The value is an object or an array, which have no text. -/
  | notSerializable (expression : String)
  deriving DecidableEq, Repr

namespace EvaluationError

/-- The wording of the error. -/
def message : EvaluationError → String
  | undefinedVariable path child =>
    let reading := match child with
      | some c => " (reading '" ++ c ++ "')"
      | none => ""
    "\"" ++ ".".intercalate path ++ "\" is not defined" ++ reading
  | notResolved e => "\"" ++ e ++ "\" was not resolved to any value"
  | notSerializable e => "\"" ++ e ++ "\" is not serializable"

end EvaluationError

/-- Either family. -/
inductive Defect where
  | malformed (e : SyntaxError)
  | unevaluable (e : EvaluationError)
  deriving DecidableEq, Repr

namespace Defect

/-- Whether the expression could not even be read. -/
def isMalformed : Defect → Bool
  | malformed _ => true
  | unevaluable _ => false

/-- The wording of the error. -/
def message : Defect → String
  | malformed e => e.message
  | unevaluable e => e.message

end Defect

end Interpolation
