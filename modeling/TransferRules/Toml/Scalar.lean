import TransferRules.Text.Decimal
import TransferRules.Toml.Basic

/-!
# Scalars of settings files

Strings in their four forms, and what is written without quotes: booleans, integers, and the
numbers and dates that no setting has.  A date or time is also read as a table; it has none of
the entries that a group of settings may have.

## Main Definitions

* `basicString?`, `literalString?` — strings on one line, behind their opening quote
* `multilineBasic?`, `multilineLiteral?` — strings over several lines
* `bare?` — a value without quotes
-/

namespace TransferRules.Toml

open TransferRules.Text

/-- A character that may stand in a comment or a literal string: no control character but the
tab. -/
def isPlain (c : Char) : Bool := c == '\t' || (0x20 ≤ c.toNat && c.toNat != 0x7f)

/-- Put a character in front of what was read. -/
def prepend (c : Char) (read : List Char × List Char) : List Char × List Char :=
  (c :: read.1, read.2)

/-- The character of an escape of one letter. -/
def letterEscape? : Char → Option Char
  | 'b' => some '\x08'
  | 't' => some '\t'
  | 'n' => some '\n'
  | 'f' => some '\x0c'
  | 'r' => some '\r'
  | '"' => some '"'
  | '\\' => some '\\'
  | _ => none

/-- The character with the given hexadecimal code. -/
def codeEscape? (digits : List Char) : Option Char :=
  match readNumeral 16 0x110000 digits with
  | .ok code => if 0xD800 ≤ code ∧ code < 0xE000 then none else some (Char.ofNat code)
  | .error _ => none

/-- The characters of a string with escapes up to its closing quote, and the rest. -/
def basicString? : List Char → Option (List Char × List Char)
  | [] => none
  | '"' :: rest => some ([], rest)
  | '\\' :: 'u' :: a :: b :: c :: d :: rest =>
    match codeEscape? [a, b, c, d] with
    | some code => (basicString? rest).map (prepend code)
    | none => none
  | '\\' :: 'U' :: a :: b :: c :: d :: e :: f :: g :: h :: rest =>
    match codeEscape? [a, b, c, d, e, f, g, h] with
    | some code => (basicString? rest).map (prepend code)
    | none => none
  | '\\' :: c :: rest =>
    match letterEscape? c with
    | some c => (basicString? rest).map (prepend c)
    | none => none
  | c :: rest => if isPlain c then (basicString? rest).map (prepend c) else none

/-- The characters of a string without escapes up to its closing quote, and the rest. -/
def literalString? : List Char → Option (List Char × List Char)
  | [] => none
  | '\'' :: rest => some ([], rest)
  | c :: rest => if isPlain c then (literalString? rest).map (prepend c) else none

/-- Whether only blanks stand before the end of the line. -/
def endsLine : List Char → Bool
  | '\n' :: _ => true
  | '\r' :: '\n' :: _ => true
  | c :: rest => (c == ' ' || c == '\t') && endsLine rest
  | [] => false

/-- The characters of a string with escapes up to three closing quotes, and the rest.  A
backslash at the end of a line joins the line with the next text; `joining` is set while the
blanks behind it are skipped.  Up to two quotes may stand before the closing ones. -/
def multilineBasic? (joining : Bool) : List Char → Option (List Char × List Char)
  | [] => none
  | '\r' :: '\n' :: rest =>
    if joining then multilineBasic? true rest
    else (multilineBasic? false rest).map (prepend '\n')
  | '\n' :: rest =>
    if joining then multilineBasic? true rest
    else (multilineBasic? false rest).map (prepend '\n')
  | '"' :: '"' :: '"' :: '"' :: '"' :: rest => some (['"', '"'], rest)
  | '"' :: '"' :: '"' :: '"' :: rest => some (['"'], rest)
  | '"' :: '"' :: '"' :: rest => some ([], rest)
  | '\\' :: 'u' :: a :: b :: c :: d :: rest =>
    match codeEscape? [a, b, c, d] with
    | some code => (multilineBasic? false rest).map (prepend code)
    | none => none
  | '\\' :: 'U' :: a :: b :: c :: d :: e :: f :: g :: h :: rest =>
    match codeEscape? [a, b, c, d, e, f, g, h] with
    | some code => (multilineBasic? false rest).map (prepend code)
    | none => none
  | '\\' :: c :: rest =>
    if endsLine (c :: rest) then multilineBasic? true (c :: rest)
    else
      match letterEscape? c with
      | some c => (multilineBasic? false rest).map (prepend c)
      | none => none
  | c :: rest =>
    if joining && (c == ' ' || c == '\t') then multilineBasic? true rest
    else if isPlain c then (multilineBasic? false rest).map (prepend c)
    else none

/-- The characters of a string without escapes up to three closing quotes, and the rest. -/
def multilineLiteral? : List Char → Option (List Char × List Char)
  | [] => none
  | '\r' :: '\n' :: rest => (multilineLiteral? rest).map (prepend '\n')
  | '\n' :: rest => (multilineLiteral? rest).map (prepend '\n')
  | '\'' :: '\'' :: '\'' :: '\'' :: '\'' :: rest => some (['\'', '\''], rest)
  | '\'' :: '\'' :: '\'' :: '\'' :: rest => some (['\''], rest)
  | '\'' :: '\'' :: '\'' :: rest => some ([], rest)
  | c :: rest => if isPlain c then (multilineLiteral? rest).map (prepend c) else none

/-- The text behind a line break, if it starts with one. -/
def dropBreak : List Char → List Char
  | '\n' :: rest => rest
  | '\r' :: '\n' :: rest => rest
  | cs => cs

/-- A string in any of its forms, and the rest. -/
def quoted? : List Char → Option (List Char × List Char)
  | '"' :: '"' :: '"' :: rest => multilineBasic? false (dropBreak rest)
  | '\'' :: '\'' :: '\'' :: rest => multilineLiteral? (dropBreak rest)
  | '"' :: rest => basicString? rest
  | '\'' :: rest => literalString? rest
  | _ => none

/-! ### Values without quotes -/

/-- The digits of a number that may have an underscore between two of them. -/
def digitGroups? (isDigit : Char → Bool) : List Char → Option (List Char)
  | [] => none
  | [c] => if isDigit c then some [c] else none
  | c :: '_' :: rest => if isDigit c then (digitGroups? isDigit rest).map (c :: ·) else none
  | c :: rest => if isDigit c then (digitGroups? isDigit rest).map (c :: ·) else none

/-- The value of digits in a radix. -/
def digitsValue? (radix : Nat) (cs : List Char) : Option Nat :=
  (digitGroups? (fun c => (digitValue? radix c).isSome) cs).map (digitsValue radix)

/-- The digits of a decimal number, which has no leading zero. -/
def decimalValue? : List Char → Option Nat
  | ['0'] => some 0
  | '0' :: _ => none
  | cs => digitsValue? 10 cs

/-- An integer.  Only decimal ones have signs. -/
def integer? : List Char → Option Int
  | '0' :: 'x' :: cs => (digitsValue? 16 cs).map Int.ofNat
  | '0' :: 'o' :: cs => (digitsValue? 8 cs).map Int.ofNat
  | '0' :: 'b' :: cs => (digitsValue? 2 cs).map Int.ofNat
  | '-' :: cs => (decimalValue? cs).map fun n => -Int.ofNat n
  | '+' :: cs => (decimalValue? cs).map Int.ofNat
  | cs => (decimalValue? cs).map Int.ofNat

/-- Whether an integer has 64 bits. -/
def isWord (n : Int) : Bool := -9223372036854775808 ≤ n && n ≤ 9223372036854775807

/-- The text without a sign. -/
def dropSign : List Char → List Char
  | '-' :: cs => cs
  | '+' :: cs => cs
  | cs => cs

/-- The value of an exponent, or zero where there is none. -/
def exponent? : List Char → Option Int
  | [] => some 0
  | e :: cs =>
    if e == 'e' || e == 'E' then
      match cs with
      | '-' :: cs => (digitsValue? 10 cs).map fun n => -Int.ofNat n
      | cs => (digitsValue? 10 (dropSign cs)).map Int.ofNat
    else none

/-- A number with a fraction or an exponent. -/
def decimal? (cs : List Char) : Option Decimal := do
  let negative := cs.head? == some '-'
  let isFigure (c : Char) := c.isDigit || c == '_'
  let whole := (dropSign cs).takeWhile isFigure
  let _ ← decimalValue? whole
  let whole ← digitGroups? Char.isDigit whole
  match (dropSign cs).dropWhile isFigure with
  | [] => none
  | '.' :: rest =>
    let fraction ← digitGroups? Char.isDigit (rest.takeWhile isFigure)
    let exponent ← exponent? (rest.dropWhile isFigure)
    return ⟨negative, whole ++ fraction, exponent - Int.ofNat fraction.length⟩
  | rest =>
    let exponent ← exponent? rest
    return ⟨negative, whole, exponent⟩

/-- Whether a text is one of the special numbers. -/
def isSpecialNumber (cs : List Char) : Bool :=
  dropSign cs == ['i', 'n', 'f'] || dropSign cs == ['n', 'a', 'n']

/-- The value of two figures. -/
def pair? (a b : Char) : Option Nat := do
  let a ← digitValue? 10 a
  let b ← digitValue? 10 b
  return a * 10 + b

/-- How many days a month has. -/
def monthDays (year month : Nat) : Nat :=
  if month = 2 then
    if year % 4 = 0 ∧ (year % 100 ≠ 0 ∨ year % 400 = 0) then 29 else 28
  else if month = 4 ∨ month = 6 ∨ month = 9 ∨ month = 11 then 30
  else 31

/-- The text behind a date. -/
def afterDate? : List Char → Option (List Char)
  | a :: b :: c :: d :: '-' :: e :: f :: '-' :: g :: h :: rest => do
    let century ← pair? a b
    let yearInCentury ← pair? c d
    let month ← pair? e f
    let day ← pair? g h
    if 1 ≤ month ∧ month ≤ 12 ∧ 1 ≤ day ∧ day ≤ monthDays (century * 100 + yearInCentury) month then
      return rest
    else none
  | _ => none

/-- The text behind hours and minutes. -/
def afterMinutes? : List Char → Option (List Char)
  | a :: b :: ':' :: c :: d :: rest => do
    let hour ← pair? a b
    let minute ← pair? c d
    if hour ≤ 23 ∧ minute ≤ 59 then return rest else none
  | _ => none

/-- The text behind a time of day; the seconds may have a fraction. -/
def afterTime? (cs : List Char) : Option (List Char) := do
  match ← afterMinutes? cs with
  | ':' :: a :: b :: rest =>
    let second ← pair? a b
    if 60 < second then none
    match rest with
    | '.' :: fraction =>
      if (fraction.takeWhile Char.isDigit).isEmpty then none
      else return fraction.dropWhile Char.isDigit
    | _ => return rest
  | _ => none

/-- Whether a text is the distance of a time zone. -/
def isOffset : List Char → Bool
  | ['Z'] => true
  | ['z'] => true
  | sign :: rest => (sign == '+' || sign == '-') && afterMinutes? rest == some []
  | [] => false

/-- Whether a text is a time of day, with a time zone or without. -/
def isZonedTime (cs : List Char) : Bool :=
  match afterTime? cs with
  | some rest => rest.isEmpty || isOffset rest
  | none => false

/-- Whether a text is a date, a time of day, or both. -/
def isMoment (cs : List Char) : Bool :=
  match afterDate? cs with
  | some [] => true
  | some (c :: rest) => (c == 'T' || c == 't') && isZonedTime rest
  | none => afterTime? cs == some []

/-- Whether a character may stand in a value without quotes. -/
def isBareValue (c : Char) : Bool :=
  c.isAlphanum || c == '_' || c == '+' || c == '-' || c == '.' || c == ':'

/-- The value of a date or time: a table without settings. -/
def moment : Toml := .table []

/-- The value of a text without quotes.  Numbers may not be too large. -/
def bareValue? (cs : List Char) : Option Toml :=
  if cs = ['t', 'r', 'u', 'e'] then some (.boolean true)
  else if cs = ['f', 'a', 'l', 's', 'e'] then some (.boolean false)
  else if isSpecialNumber cs then some .other
  else if isMoment cs then some moment
  else
    match integer? cs, decimal? cs with
    | some n, _ => if isWord n then some (.integer n) else none
    | none, some d => if d.isTooLarge then none else some .other
    | none, none => none

/-- A value without quotes, and the rest.  A date may be followed by a space and a time of
day. -/
def bare? (cs : List Char) : Option (Toml × List Char) :=
  let word := cs.takeWhile isBareValue
  let rest := cs.dropWhile isBareValue
  match afterDate? word, rest with
  | some [], ' ' :: more =>
    if isZonedTime (more.takeWhile isBareValue) then some (moment, more.dropWhile isBareValue)
    else some (moment, rest)
  | _, _ => (bareValue? word).map fun value => (value, rest)

end TransferRules.Toml
