import Interpolation.Text.Basic
import Interpolation.Yaml.Scalar

/-!
# How a text is written in YAML

A text is written plainly if that reads back as the same text, else in single quotes, else in
double quotes with escapes; a text of several lines is written as a literal block where that is
possible. What stands in the way is found by looking at each character and its neighbours.
-/

namespace Interpolation.Yaml

/-- A way to write a scalar. -/
inductive Style where
  | plain
  | singleQuoted
  | doubleQuoted
  | literal
  deriving DecidableEq, Repr

namespace Style

/-- The characters that need no escape. -/
def isPrintable (c : Char) : Bool :=
  let n := c.toNat
  n = 0x0A || (0x20 ≤ n && n ≤ 0x7E) || (0xA0 ≤ n && n ≤ 0xFFFD && n ≠ 0xFEFF) || 0x10000 ≤ n

/-- The line breaks of all spellings. -/
def isBreak (c : Char) : Bool :=
  c = '\n' || c = '\r' || c = '\u0085' || c = '\u2028' || c = '\u2029'

/-- Spaces, tabs, line breaks and the end of the text. -/
def isSpace (c : Option Char) : Bool :=
  match c with
  | none => true
  | some c => c = ' ' || c = '\t' || isBreak c

/-- The characters that cannot begin a plain scalar. -/
def leadIndicators : List Char :=
  ['#', ',', '[', ']', '{', '}', '&', '*', '!', '|', '>', '\'', '"', '%', '@', '`']

/-- Whether the first character would be taken for a mark of structure. -/
def leadsAsIndicator : List Char → Bool
  | [] => false
  | c :: cs => c ∈ leadIndicators || (c ∈ ['?', ':', '-'] && isSpace cs.head?)

/-- Whether the text begins like a document mark. -/
def leadsAsMarker : List Char → Bool
  | '-' :: '-' :: '-' :: _ => true
  | '.' :: '.' :: '.' :: _ => true
  | _ => false

/-- Whether some pair of neighbours, the second perhaps missing, satisfies `p`. -/
def anyPair (p : Char → Option Char → Bool) : List Char → Bool
  | [] => false
  | c :: cs => p c cs.head? || anyPair p cs

/-- Whether a colon before white space, or a hash behind it, stands behind the first character. -/
def holdsIndicator (cs : List Char) : Bool :=
  (cs.drop 1).any (· = ':') && anyPair (fun c d ↦ c = ':' && isSpace d) (cs.drop 1) ||
    anyPair (fun c d ↦ isSpace (some c) && d = some '#') cs

/-- Whether a text can be a plain scalar. -/
def allowsPlain (cs : List Char) : Bool :=
  ¬ (leadsAsIndicator cs || leadsAsMarker cs || holdsIndicator cs || cs.any isBreak ||
    cs.any (¬ isPrintable ·) || cs.head? = some ' ' || cs.getLast? = some ' ')

/-- Whether a line break has a space right before it. -/
def spaceBeforeBreak : List Char → Bool :=
  anyPair fun c d ↦ c = ' ' && d.any isBreak

/-- Whether a line break has a space right behind it. -/
def spaceAfterBreak : List Char → Bool :=
  anyPair fun c d ↦ isBreak c && d = some ' '

/-- Whether a text can stand in single quotes. -/
def allowsSingle (cs : List Char) : Bool :=
  ¬ (cs.any (¬ isPrintable ·) || spaceBeforeBreak cs || spaceAfterBreak cs)

/-- Whether a text can be a literal block. -/
def allowsLiteral (cs : List Char) : Bool :=
  ¬ (cs = [] || cs.any (¬ isPrintable ·) || spaceBeforeBreak cs || cs.getLast? = some ' ')

/-- Whether a text would be read as something else if it stood there plainly. -/
def isAmbiguous (s : String) : Bool := Scalar.meaning s ≠ .text || Scalar.hasExtraZero s.toList

/-- How a text is written. -/
def ofText (s : String) : Style :=
  let cs := s.toList
  if '\n' ∈ cs then if allowsLiteral cs then literal else doubleQuoted
  else if ¬ isAmbiguous s ∧ allowsPlain cs then plain
  else if allowsSingle cs then singleQuoted
  else doubleQuoted

/-- Whether a text can be a key in front of its colon: it must be on one line and not too long. -/
def isSimpleKey (s : String) : Bool :=
  ¬ s.toList.any isBreak ∧ Text.byteLength s.toList ≤ 128

end Style

end Interpolation.Yaml
