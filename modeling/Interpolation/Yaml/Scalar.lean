import Interpolation.Document.Basic
import Interpolation.Yaml.Token

/-!
# The meaning of scalars

A plain scalar is read as null, a boolean, an integer or a fraction if it is spelled like one, else
as text. Digits with a superfluous zero in front are text. The integers of documents have 64 bits;
a longer one is refused up to 128 bits, and beyond these it is read as a fraction.
-/

namespace Interpolation.Yaml

/-- What the spelling of a scalar says. -/
inductive Meaning where
  | null
  | bool (b : Bool)
  | integer (i : Int)
  | float (b : Binary64)
  /-- An infinity, or not a number. -/
  | nonFinite
  | text
  /-- An integer that no document can hold. -/
  | outOfRange
  deriving DecidableEq, Repr

namespace Scalar

def isNull (s : String) : Bool := s ∈ ["null", "Null", "NULL", "~"]

def bool? (s : String) : Option Bool :=
  if s ∈ ["true", "True", "TRUE"] then some true
  else if s ∈ ["false", "False", "FALSE"] then some false
  else none

/-- Digits, with or without a sign, that begin with a superfluous zero. -/
def hasExtraZero (s : List Char) : Bool :=
  match (Decimal.splitSign s).2 with
  | '0' :: d :: ds => (d :: ds).all Char.isDigit
  | _ => false

/-- Digits behind the mark of their base. -/
def based? : List Char → Option Nat
  | '0' :: 'x' :: ds => Decimal.natOfDigits? 16 ds
  | '0' :: 'o' :: ds => Decimal.natOfDigits? 8 ds
  | '0' :: 'b' :: ds => Decimal.natOfDigits? 2 ds
  | _ => none

/-- An integer of any size, and whether it has a minus sign. -/
def integer? (s : List Char) : Option (Bool × Nat) :=
  let (negative, digits) := Decimal.splitSign s
  match based? digits with
  | some n => some (negative, n)
  | none =>
    if hasExtraZero s then none else (Decimal.natOfDigits? 10 digits).map fun n ↦ (negative, n)

/-- What an integer means, given its size; none if it is read as something else. -/
def ofInteger? : Bool × Nat → Option Meaning
  | (false, n) =>
    if n < 1 <<< 64 then some (.integer n) else if n < 1 <<< 128 then some .outOfRange else none
  | (true, n) =>
    if n ≤ 1 <<< 63 then some (.integer (-n)) else if n ≤ 1 <<< 127 then some .outOfRange else none

/-- A fraction; a number too great for one is none. -/
def float? (s : String) : Option Meaning :=
  if s ∈ [".inf", ".Inf", ".INF", "+.inf", "+.Inf", "+.INF", "-.inf", "-.Inf", "-.INF",
      ".nan", ".NaN", ".NAN"] then some .nonFinite
  else ((Decimal.ofText? s.toList).bind Binary64.ofDecimal?).map .float

/-- What a plain scalar means. -/
def meaning (s : String) : Meaning :=
  if s = "" ∨ isNull s then .null
  else match bool? s with
    | some b => .bool b
    | none =>
      match (integer? s.toList).bind ofInteger? with
      | some m => m
      | none => if hasExtraZero s.toList then .text else (float? s).getD .text

/-- A tag of the standard. -/
def standardTag (name : String) : TagText := .ofWord ("tag:yaml.org,2002:" ++ name).toList

/-- Whether a tag begins like those that belong to the text itself and not to the standard. -/
def isLocalTag (tag : TagText) : Bool := tag.head? = some '!'.toNat.toUInt8

/-- What a scalar with a tag means. Only four tags of the standard ask for a kind, and refuse any
other; further tags leave the scalar text, but local ones do not count if it is plain. -/
def taggedMeaning? (tag : TagText) (plain : Bool) (s : String) : Option Meaning :=
  if tag = standardTag "bool" then (bool? s).map .bool
  else if tag = standardTag "int" then (integer? s.toList).bind ofInteger?
  else if tag = standardTag "float" then float? s
  else if tag = standardTag "null" then if isNull s then some .null else none
  else if isLocalTag tag ∧ plain then some (meaning s)
  else some .text

end Scalar

namespace Meaning

/-- The document of a meaning, given the text; none if there is no document for it. -/
def toDocument? (m : Meaning) (s : String) : Option Document :=
  match m with
  | null => some .null
  | bool b => some (.bool b)
  | integer i => some (.number (.integer i))
  | float b => some (.number (.float b))
  | nonFinite => some .null
  | text => some (.string s)
  | outOfRange => none

end Meaning

end Interpolation.Yaml
