/-!
# Decimal numerals

A numeral is kept exactly, as a coefficient and a power of ten, so that rounding happens once and
elsewhere. The reader is generous: digits may be missing on one side of the point, and a sign may
be a plus. Formats with stricter numerals check them before.
-/

namespace Interpolation

/-- The number `± coefficient * 10 ^ power`. -/
structure Decimal where
  negative : Bool
  coefficient : Nat
  power : Int
  deriving DecidableEq, Repr

namespace Decimal

/-- The value of a digit in bases up to sixteen. -/
def digitValue? (c : Char) : Option Nat :=
  if '0' ≤ c ∧ c ≤ '9' then some (c.toNat - '0'.toNat)
  else if 'a' ≤ c ∧ c ≤ 'f' then some (c.toNat - 'a'.toNat + 10)
  else if 'A' ≤ c ∧ c ≤ 'F' then some (c.toNat - 'A'.toNat + 10)
  else none

/-- The value of a text of digits in a base; there must be at least one digit. -/
def natOfDigits? (base : Nat) : List Char → Option Nat
  | [] => none
  | cs => cs.foldl (fun acc c ↦ do
      let n ← acc
      let d ← digitValue? c
      if d < base then some (n * base + d) else none) (some 0)

/-- Splits off a sign; the answer says whether it is a minus. -/
def splitSign : List Char → Bool × List Char
  | '-' :: cs => (true, cs)
  | '+' :: cs => (false, cs)
  | cs => (false, cs)

/-- The exponent after a mantissa: nothing, or a mark and a number with an optional sign. -/
def exponentOfText? : List Char → Option Int
  | [] => some 0
  | c :: cs =>
    if c = 'e' ∨ c = 'E' then
      let (negative, digits) := splitSign cs
      (natOfDigits? 10 digits).map fun (n : Nat) ↦ if negative then -(n : Int) else n
    else none

/-- Reads a numeral: a sign, digits with at most one point among or beside them, an exponent. -/
def ofText? (cs : List Char) : Option Decimal := do
  let (negative, cs) := splitSign cs
  let whole := cs.takeWhile Char.isDigit
  let cs := cs.dropWhile Char.isDigit
  let (fraction, cs) := match cs with
    | '.' :: cs => (cs.takeWhile Char.isDigit, cs.dropWhile Char.isDigit)
    | cs => ([], cs)
  let coefficient ← natOfDigits? 10 (whole ++ fraction)
  let exponent ← exponentOfText? cs
  some ⟨negative, coefficient, exponent - fraction.length⟩

end Decimal

end Interpolation
