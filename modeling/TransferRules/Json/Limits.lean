import TransferRules.Json.Reading
import TransferRules.Text.Decimal

/-!
# Limits of JSON

A text may follow the syntax of JSON and still be refused as a whole: its arrays and objects may
be nested too deep, one of its numbers may be too large for a floating point number of 64 bits,
or one of its strings may hold half of a surrogate pair.

## Main Definitions

* `Json.isWithin` — whether a value keeps to the limits
* `Json.parseWithin?` — the value of a text, if it keeps to them
-/

namespace TransferRules.Json

open TransferRules.Text (Decimal)

/-- The size of a number with a sign, a fraction or an exponent. -/
def magnitude (text : String) : Decimal :=
  let isMark (c : Char) := c == 'e' || c == 'E'
  let cs := text.toList.dropWhile fun c => c == '-'
  let (whole, fraction) := splitDigits (cs.takeWhile fun c => !isMark c)
  let exponent : Int :=
    match (cs.dropWhile fun c => !isMark c).drop 1 with
    | '-' :: digits => -Int.ofNat (digitsValue digits)
    | '+' :: digits => Int.ofNat (digitsValue digits)
    | digits => Int.ofNat (digitsValue digits)
  let places := fraction.drop 1
  { figures := whole ++ places, exponent := exponent - Int.ofNat places.length }

mutual

/-- Whether a value has at most `depth` arrays and objects inside each other, and nothing in it is
too large or ill-formed. -/
def isWithin (depth : Nat) : Json → Bool
  | null => true
  | boolean _ => true
  | natural value => value < Decimal.infiniteFrom
  | number text => !(magnitude text).isTooLarge
  | string _ => true
  | array items =>
    match depth with
    | 0 => false
    | depth + 1 => areWithin depth items
  | object members =>
    match depth with
    | 0 => false
    | depth + 1 => membersAreWithin depth members
  | illFormed => false

/-- Whether the items of an array keep to the limits. -/
def areWithin (depth : Nat) : List Json → Bool
  | [] => true
  | item :: items => isWithin depth item && areWithin depth items

/-- Whether the values of an object keep to the limits. -/
def membersAreWithin (depth : Nat) : List (String × Json) → Bool
  | [] => true
  | (_, value) :: members => isWithin depth value && membersAreWithin depth members

end

/-- The value of a text, if it keeps to the limits. -/
def parseWithin? (depth : Nat) (text : String) : Option Json :=
  (parse? text).filter (isWithin depth)

end TransferRules.Json
