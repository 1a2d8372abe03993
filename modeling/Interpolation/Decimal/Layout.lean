import Interpolation.Decimal.Shortest

/-!
# Layouts of decimal text

What is written around the digits of a number is the choice of a format: where the point stands
without an exponent, what marks a whole number, how an exponent is written. A `Layout` holds these
choices.
-/

namespace Interpolation

/-- The choices of a format for its numbers. -/
structure Layout where
  /-- The decimal taken of two equally near ones. -/
  tie : Tie
  /-- The least and the greatest number of places before the point that are written without an
  exponent; a number below a tenth has a negative number of them. -/
  least : Int
  greatest : Int
  /-- What follows the digits of a whole number without an exponent. -/
  wholeMark : String
  /-- What stands before an exponent that is not negative. -/
  exponentSign : String
  /-- Whether a negative zero keeps its sign. -/
  signedZero : Bool
  deriving DecidableEq, Repr

namespace Layout

/-- `n` zeros. -/
def zeros (n : Nat) : List Char := List.replicate n '0'

/-- Digits with the point after `places` of them. -/
def positional (layout : Layout) (digits : List Char) (places : Int) : List Char :=
  if places ≤ 0 then '0' :: '.' :: (zeros (-places).toNat ++ digits)
  else if digits.length ≤ places.toNat then
    digits ++ zeros (places.toNat - digits.length) ++ layout.wholeMark.toList
  else digits.take places.toNat ++ '.' :: digits.drop places.toNat

/-- Digits with the point after the first and an exponent. -/
def scientific (layout : Layout) (digits : List Char) (places : Int) : List Char :=
  let exponent := places - 1
  let mark := if exponent < 0 then ['-'] else layout.exponentSign.toList
  let mantissa := match digits with
    | d :: (e :: es) => d :: '.' :: e :: es
    | ds => ds
  mantissa ++ 'e' :: (mark ++ exponent.natAbs.repr.toList)

/-- The text of a number in a layout. -/
def text (layout : Layout) (b : Binary64) : String :=
  let body :=
    if b.isZero then '0' :: layout.wholeMark.toList
    else
      let (d, k) := b.shortest layout.tie
      let digits := d.repr.toList
      let places := digits.length + k
      if layout.least ≤ places ∧ places ≤ layout.greatest then layout.positional digits places
      else layout.scientific digits places
  let signed := b.negative ∧ (layout.signedZero ∨ ¬ b.isZero)
  String.ofList (if signed then '-' :: body else body)

end Layout

end Interpolation
