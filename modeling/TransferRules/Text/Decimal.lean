import TransferRules.Text.Numeral

/-!
# Decimal numbers

A number with a point or an exponent is kept as it is written: its figures, and the power of ten
that scales them.  What is asked of such a number is only whether a floating point number of 64
bits is large enough for it.

## Main Definitions

* `Decimal` — the figures of a number and their scale
* `Decimal.isTooLarge` — whether the number is rounded to infinity

## Design Notes

The number of places before the point settles nearly every case.  So a power of ten is computed
only for numbers as large as the limit, and it is no longer than the limit or what is written.
-/

namespace TransferRules.Text

/-- A number in decimal notation: its figures read as a whole number, times ten to the
exponent. -/
structure Decimal where
  negative : Bool := false
  figures : List Char
  exponent : Int := 0
  deriving Repr, DecidableEq

namespace Decimal

/-- The least number that is rounded to infinity.  It is half a unit above the largest finite
one, and the tie between the two goes upwards. -/
def infiniteFrom : Nat := Nat.pow 2 1024 - Nat.pow 2 970

/-- How many places before the point `infiniteFrom` has. -/
def infinitePlaces : Nat := 309

/-- Whether a number is rounded to infinity.  Large negative numbers are no concern. -/
def isTooLarge (d : Decimal) : Bool :=
  let figures := d.figures.dropWhile fun c => c == '0'
  let places := Int.ofNat figures.length + d.exponent
  if d.negative || figures.isEmpty then false
  else if places < Int.ofNat infinitePlaces then false
  else if Int.ofNat infinitePlaces < places then true
  else
    infiniteFrom * Nat.pow 10 (figures.length - infinitePlaces) ≤
      digitsValue 10 figures * Nat.pow 10 (infinitePlaces - figures.length)

end Decimal

end TransferRules.Text
