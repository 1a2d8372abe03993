import Interpolation.Decimal.Decimal

/-!
# Finite binary numbers of double precision

A number with 53 significant bits is kept as a sign, a significand and an exponent of two. No
machine arithmetic is involved: a decimal numeral is rounded to the nearest such number in exact
integer arithmetic, once, with ties to the even significand.
-/

namespace Interpolation

/-- The number `± significand * 2 ^ exponent`. The significand is as large as 53 bits allow, unless
the exponent is at its lower end already; so a number has one representation. -/
structure Binary64 where
  negative : Bool
  significand : Nat
  exponent : Int
  deriving DecidableEq, Repr

namespace Binary64

/-- The least exponent. -/
def leastExponent : Int := -1074

/-- The greatest exponent. -/
def greatestExponent : Int := 971

def isZero (b : Binary64) : Bool := b.significand = 0

/-- `num / den` to the nearest integer, a half to the even one. -/
def divideToEven (num den : Nat) : Nat :=
  let q := num / den
  let r := num % den
  if den < 2 * r ∨ (2 * r = den ∧ q % 2 = 1) then q + 1 else q

/-- `num / den` counted in units of `2 ^ e`, as a fraction. -/
def inUnits (num den : Nat) (e : Int) : Nat × Nat :=
  if 0 ≤ e then (num, den <<< e.toNat) else (num <<< (-e).toNat, den)

/-- The exponent at which `num / den` has 53 bits before the point, or the least one. -/
def exponentFor (num den : Nat) : Int :=
  let e : Int := (num.log2 : Int) - den.log2 - 53
  let (n, d) := inUnits num den e
  max leastExponent (if d <<< 53 ≤ n then e + 1 else e)

/-- The number nearest to `± num / den`; `none` beyond the greatest one. -/
def ofRatio? (negative : Bool) (num den : Nat) : Option Binary64 :=
  let e := exponentFor num den
  let (n, d) := inUnits num den e
  let q := divideToEven n d
  let (q, e) := if q = 1 <<< 53 then (1 <<< 52, e + 1) else (q, e)
  if greatestExponent < e then none else some ⟨negative, q, e⟩

/-- The number nearest to a decimal; `none` beyond the greatest one. Powers of ten far outside the
range are settled without computing them. -/
def ofDecimal? (x : Decimal) : Option Binary64 :=
  if x.coefficient = 0 ∨ x.power < -(400 + x.coefficient.log2 : Int) then
    some ⟨x.negative, 0, leastExponent⟩
  else if 400 < x.power then none
  else if 0 ≤ x.power then ofRatio? x.negative (x.coefficient * Nat.pow 10 x.power.toNat) 1
  else ofRatio? x.negative x.coefficient (Nat.pow 10 (-x.power).toNat)

end Binary64

end Interpolation
