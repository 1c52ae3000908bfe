import TransferRules.Json.Basic

/-!
# Reading JSON

The strict syntax: no trailing commas, no comments, no leading zeros, no control characters in
strings, nothing but space after the value.

## Main Definitions

* `Json.parse?` — the value of a text

## Design Notes

Every step of the reader consumes a character or moves on from a list to its first item, so
twice the length of the text bounds the depth of the recursion.
-/

namespace TransferRules.Json

/-- Drop the space before a token. -/
def skipSpace (cs : List Char) : List Char :=
  cs.dropWhile fun c => c == ' ' || c == '\t' || c == '\n' || c == '\r'

/-- The value of a hexadecimal digit of either case. -/
def hexValue? (c : Char) : Option Nat :=
  let n := c.toNat
  if 48 ≤ n ∧ n ≤ 57 then some (n - 48)
  else if 97 ≤ n ∧ n ≤ 102 then some (n - 87)
  else if 65 ≤ n ∧ n ≤ 70 then some (n - 55)
  else none

/-- The code of four hexadecimal digits. -/
def hexCode? (a b c d : Char) : Option Nat := do
  let a ← hexValue? a
  let b ← hexValue? b
  let c ← hexValue? c
  let d ← hexValue? d
  return ((a * 16 + b) * 16 + c) * 16 + d

/-- The character of an escape of one letter. -/
def letterEscape? : Char → Option Char
  | '"' => some '"'
  | '\\' => some '\\'
  | '/' => some '/'
  | 'b' => some '\x08'
  | 'f' => some '\x0c'
  | 'n' => some '\n'
  | 'r' => some '\r'
  | 't' => some '\t'
  | _ => none

/-- A string as a list of 16 bit units and characters: escapes give units, the text itself
gives characters. -/
inductive StringPart where
  | character (c : Char)
  | unit (code : Nat)

/-- The parts of a string up to its closing quote. -/
def stringParts? : List Char → Option (List StringPart × List Char)
  | '"' :: rest => some ([], rest)
  | '\\' :: 'u' :: a :: b :: c :: d :: rest => do
    let code ← hexCode? a b c d
    let (parts, rest) ← stringParts? rest
    return (.unit code :: parts, rest)
  | '\\' :: c :: rest => do
    let c ← letterEscape? c
    let (parts, rest) ← stringParts? rest
    return (.character c :: parts, rest)
  | c :: rest =>
    if c.toNat < 0x20 ∨ c = '\\' then none
    else do
      let (parts, rest) ← stringParts? rest
      return (.character c :: parts, rest)
  | [] => none

/-- The characters of the parts of a string; a half of a surrogate pair that stands alone has
none. -/
def joinParts? : List StringPart → Option (List Char)
  | [] => some []
  | .character c :: parts => (c :: ·) <$> joinParts? parts
  | .unit high :: .unit low :: parts =>
    if 0xD800 ≤ high ∧ high < 0xDC00 then
      if 0xDC00 ≤ low ∧ low < 0xE000 then
        (Char.ofNat (0x10000 + (high - 0xD800) * 0x400 + (low - 0xDC00)) :: ·) <$> joinParts? parts
      else none
    else if 0xDC00 ≤ high ∧ high < 0xE000 then none
    else (Char.ofNat high :: ·) <$> joinParts? (.unit low :: parts)
  | .unit code :: parts =>
    if 0xD800 ≤ code ∧ code < 0xE000 then none else (Char.ofNat code :: ·) <$> joinParts? parts

/-- A string behind its opening quote: its text, if it has one, and the rest. -/
def readString? (cs : List Char) : Option (Option String × List Char) :=
  (stringParts? cs).map fun (parts, rest) =>
    ((joinParts? parts).map String.ofList, rest)

/-- Split at the first character that is no digit. -/
def splitDigits (cs : List Char) : List Char × List Char :=
  (cs.takeWhile Char.isDigit, cs.dropWhile Char.isDigit)

/-- The integer part of a number: no leading zeros. -/
def integerPart? (cs : List Char) : Option (List Char × List Char) :=
  match cs with
  | '0' :: rest =>
    match rest with
    | c :: _ => if c.isDigit then none else some (['0'], rest)
    | [] => some (['0'], rest)
  | _ =>
    match splitDigits cs with
    | ([], _) => none
    | split => some split

/-- The fraction of a number, which needs a digit behind its point. -/
def fractionPart? : List Char → Option (List Char × List Char)
  | '.' :: rest =>
    match splitDigits rest with
    | ([], _) => none
    | (digits, rest) => some ('.' :: digits, rest)
  | cs => some ([], cs)

/-- The digits of an exponent behind its letter and sign. -/
def exponentDigits? (start : List Char) (cs : List Char) : Option (List Char × List Char) :=
  match splitDigits cs with
  | ([], _) => none
  | (digits, rest) => some (start ++ digits, rest)

/-- The exponent of a number, with a sign or without. -/
def exponentPart? : List Char → Option (List Char × List Char)
  | e :: s :: rest =>
    if e = 'e' ∨ e = 'E' then
      if s = '+' ∨ s = '-' then exponentDigits? [e, s] rest else exponentDigits? [e] (s :: rest)
    else some ([], e :: s :: rest)
  | [e] => if e = 'e' ∨ e = 'E' then none else some ([], [e])
  | [] => some ([], [])

/-- The value of decimal digits. -/
def digitsValue (cs : List Char) : Nat := cs.foldl (fun n c => n * 10 + (c.toNat - 48)) 0

/-- A number.  A non-negative integer has a value, any other number only its text. -/
def readNumber? (cs : List Char) : Option (Json × List Char) := do
  let (sign, unsigned) :=
    match cs with
    | '-' :: rest => (['-'], rest)
    | _ => ([], cs)
  let (whole, rest) ← integerPart? unsigned
  let (fraction, rest) ← fractionPart? rest
  let (exponent, rest) ← exponentPart? rest
  if sign.isEmpty ∧ fraction.isEmpty ∧ exponent.isEmpty then
    return (natural (digitsValue whole), rest)
  else return (number (String.ofList (sign ++ whole ++ fraction ++ exponent)), rest)

/-- The object of some members, unless one of the keys has no text. -/
def ofMembers (members : List (Option String × Json)) : Json :=
  match members.mapM fun (key?, value) => key?.map fun key => (key, value) with
  | some members => object members
  | none => illFormed

mutual

/-- A value and the rest of the text. -/
def readValue? : Nat → List Char → Option (Json × List Char)
  | 0, _ => none
  | fuel + 1, cs =>
    match skipSpace cs with
    | 'n' :: 'u' :: 'l' :: 'l' :: rest => some (null, rest)
    | 't' :: 'r' :: 'u' :: 'e' :: rest => some (boolean true, rest)
    | 'f' :: 'a' :: 'l' :: 's' :: 'e' :: rest => some (boolean false, rest)
    | '"' :: rest =>
      (readString? rest).map fun (text?, rest) => ((text?.map string).getD illFormed, rest)
    | '[' :: rest =>
      match skipSpace rest with
      | ']' :: rest => some (array [], rest)
      | rest => (readItems? fuel rest).map fun (items, rest) => (array items, rest)
    | '\x7b' :: rest =>
      match skipSpace rest with
      | '\x7d' :: rest => some (object [], rest)
      | rest => (readMembers? fuel rest).map fun (members, rest) => (ofMembers members, rest)
    | rest => readNumber? rest

/-- The items of an array up to its closing bracket; there is at least one. -/
def readItems? : Nat → List Char → Option (List Json × List Char)
  | 0, _ => none
  | fuel + 1, cs => do
    let (item, rest) ← readValue? fuel cs
    match skipSpace rest with
    | ',' :: rest =>
      let (items, rest) ← readItems? fuel rest
      return (item :: items, rest)
    | ']' :: rest => return ([item], rest)
    | _ => none

/-- The members of an object up to its closing brace; there is at least one. -/
def readMembers? : Nat → List Char → Option (List (Option String × Json) × List Char)
  | 0, _ => none
  | fuel + 1, cs =>
    match skipSpace cs with
    | '"' :: rest => do
      let (key?, rest) ← readString? rest
      match skipSpace rest with
      | ':' :: rest =>
        let (value, rest) ← readValue? fuel rest
        match skipSpace rest with
        | ',' :: rest =>
          let (members, rest) ← readMembers? fuel rest
          return ((key?, value) :: members, rest)
        | '\x7d' :: rest => return ([(key?, value)], rest)
        | _ => none
      | _ => none
    | _ => none

end

/-- The value of a text that holds one value and space around it. -/
def parse? (text : String) : Option Json := do
  let cs := text.toList
  let (json, rest) ← readValue? (2 * cs.length + 2) cs
  if (skipSpace rest).isEmpty then return json else none

end TransferRules.Json
