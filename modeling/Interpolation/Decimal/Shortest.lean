import Interpolation.Decimal.Binary64

/-!
# The fewest digits that read back

A binary number is written with the fewest decimal digits that still round to it, and of the
decimals with that many digits the nearest one. The decimals that round to `m * 2 ^ e` form an
interval of half a unit to either side (a quarter below, where the numbers below lie closer), with
its ends exactly if `m` is even. Grids of powers of ten are tried from the coarsest on: if any
point of a grid lies in the interval, then one of the two neighbours of the number does.
-/

namespace Interpolation

/-- Which of two decimals equally near to a number is taken. -/
inductive Tie where
  | up
  | even
  deriving DecidableEq, Repr

namespace Binary64

/-- The number and the ends of its interval, in units that are common to the three. -/
structure Interval where
  low : Nat
  value : Nat
  high : Nat
  /-- How many units make one. -/
  one : Nat
  closed : Bool

/-- The decimals that round to a number, its sign apart. -/
def interval (b : Binary64) : Interval :=
  let m := b.significand
  let e := b.exponent - 2
  let scale := if 0 ≤ e then 1 <<< e.toNat else 1
  let one := if 0 ≤ e then 1 else 1 <<< (-e).toNat
  let below := if m = 1 <<< 52 ∧ leastExponent < b.exponent then 1 else 2
  ⟨(4 * m - below) * scale, 4 * m * scale, (4 * m + 2) * scale, one, m % 2 = 0⟩

namespace Interval

/-- Whether `d * 10 ^ k` lies in the interval, `unit` being `10 ^ k` for the scaled interval. -/
def holds (i : Interval) (point : Nat) : Bool :=
  if i.closed then i.low ≤ point ∧ point ≤ i.high else i.low < point ∧ point < i.high

/-- The same interval in units of which `10 ^ k` has a whole number, and that number. -/
def onGrid (i : Interval) (k : Int) : Interval × Nat :=
  if 0 ≤ k then (i, i.one * Nat.pow 10 k.toNat)
  else
    let s := Nat.pow 10 (-k).toNat
    (⟨i.low * s, i.value * s, i.high * s, i.one * s, i.closed⟩, i.one)

/-- The multiple of `10 ^ k` in the interval that is nearest to the number, if there is one. -/
def nearest? (tie : Tie) (i : Interval) (k : Int) : Option Nat :=
  let (i, unit) := i.onGrid k
  let d := i.value / unit
  let below := i.value - d * unit
  let above := (d + 1) * unit - i.value
  match i.holds (d * unit), i.holds ((d + 1) * unit) with
  | false, false => none
  | true, false => some d
  | false, true => some (d + 1)
  | true, true =>
    if below < above then some d
    else if above < below then some (d + 1)
    else match tie with
      | .up => some (d + 1)
      | .even => some (if d % 2 = 0 then d else d + 1)

end Interval

/-- A power of ten above the number. -/
def powerAbove (b : Binary64) : Int :=
  ((b.significand.log2 : Int) + b.exponent + 1) * 30103 / 100000 + 2

/-- The fewest digits that read back, as a coefficient and a power of ten. Seventeen digits always
do, so the search ends long before its bound. -/
def shortest (tie : Tie) (b : Binary64) : Nat × Int :=
  let i := b.interval
  let grids := (List.range 24).map fun (n : Nat) ↦ b.powerAbove - n
  (grids.findSome? fun k ↦ (i.nearest? tie k).map fun d ↦ (d, k)).getD (0, 0)

end Binary64

end Interpolation
