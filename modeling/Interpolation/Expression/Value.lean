import Interpolation.Decimal.Layout
import Interpolation.Document.Basic

/-!
# Values of expressions

An expression evaluates to a part of the context, to a text of its own, or to nothing: a key that
is missing below the root is no error until something is read from it.
-/

namespace Interpolation

/-- What an expression evaluates to. -/
inductive Value where
  /-- A key that is absent below the root. -/
  | undefined
  /-- A part of the context. -/
  | document (d : Document)
  /-- A quoted text of the expression. -/
  | literal (s : String)
  deriving Repr

namespace Value

/-- Nothing or null. -/
def isNullish : Value → Bool
  | undefined => true
  | document .null => true
  | _ => false

/-- Nothing, null, false, zero and the empty text count as false. -/
def isTruthy : Value → Bool
  | undefined => false
  | literal s => s ≠ ""
  | document .null => false
  | document (.bool b) => b
  | document (.string s) => s ≠ ""
  | document (.number n) => ¬ n.isZero
  | document (.array _) => true
  | document (.object _) => true

/-- The value under a name; only objects have names. -/
def property? (v : Value) (name : String) : Option Document :=
  match v with
  | document d => d.field? name
  | _ => none

end Value

/-- Numbers in rendered text: no mark on whole numbers, an exponent from 1e21 on and below 1e-6,
and one zero. -/
def Number.layout : Layout where
  tie := .up
  least := -5
  greatest := 21
  wholeMark := ""
  exponentSign := "+"
  signedZero := false

namespace Number

/-- The rendered text of a number. -/
def text : Number → String
  | integer i => i.repr
  | float b => layout.text b

end Number

namespace Value

/-- The rendered text of a value; objects, arrays, null and nothing have none. -/
def text? : Value → Option String
  | literal s => some s
  | document (.string s) => some s
  | document (.bool b) => some (if b then "true" else "false")
  | document (.number n) => some n.text
  | _ => none

end Value

end Interpolation
