import TransferRules.Text.Blank
import TransferRules.Text.Fields
import TransferRules.Text.Numeral
import TransferRules.Text.Utf8
import TransferRules.Toml.Scalar

/-!
# Settings in the environment

An environment variable gives a setting if its name starts with a prefix, in whatever case.
The rest of the name is the path of the setting, with two underscores between its parts.  The
value is written more loosely than in a file: a text needs no quotes.

## Main Definitions

* `looseValue` — the value of a text
* `settingPath?` — the path in a name
* `environmentSettings` — the settings of an environment
-/

namespace TransferRules

open TransferRules.Text

namespace Toml

/-- Drop ASCII white space. -/
def skipWhite (cs : List Char) : List Char :=
  cs.dropWhile fun c => c == ' ' || c == '\t' || c == '\n' || c == '\x0c' || c == '\r'

/-- Whether a character ends a text without quotes. -/
def isDelimiter (c : Char) : Bool :=
  c == ',' || c == '\x7b' || c == '\x7d' || c == '[' || c == ']'

/-- Whether a text is a number with a point. -/
def isPointNumber (cs : List Char) : Bool :=
  let cs := dropSign cs
  let whole := cs.takeWhile Char.isDigit
  match cs.dropWhile Char.isDigit with
  | '.' :: rest =>
    let fraction := rest.takeWhile Char.isDigit
    !(whole.isEmpty && fraction.isEmpty) &&
      match rest.dropWhile Char.isDigit with
      | [] => true
      | e :: exponent =>
        let digits := dropSign exponent
        (e == 'e' || e == 'E') && !digits.isEmpty && digits.all Char.isDigit
  | _ => false

/-- An integer of 64 bits, with a sign or without. -/
def looseInteger? (cs : List Char) : Option Int :=
  let magnitude? (bound : Nat) (cs : List Char) := (readNumeral 10 bound cs).toOption
  match cs with
  | '-' :: cs => (magnitude? 9223372036854775809 cs).map fun n => -Int.ofNat n
  | '+' :: cs => (magnitude? 18446744073709551616 cs).map Int.ofNat
  | cs => (magnitude? 18446744073709551616 cs).map Int.ofNat

/-- The value of a text without quotes. -/
def looseScalar (cs : List Char) : Toml :=
  let cs := strip isBlank cs
  if isPointNumber cs then .other
  else
    match looseInteger? cs with
    | some n => .integer n
    | none => .text (String.ofList cs)

/-- A text behind its opening quote, and the rest.  If there are escapes in it, what stands before
the first one is cut: it keeps as many bytes as it has characters. -/
def looseString? (cs : List Char) : Option (String × List Char) :=
  let start := cs.takeWhile fun c => c != '"' && c != '\\'
  (basicString? cs).map fun (chars, rest) =>
    match cs.drop start.length with
    | '\\' :: _ =>
      (String.ofList (takeBytes start.length start ++ chars.drop start.length), rest)
    | _ => (String.ofList chars, rest)

/-- A key in braces, and the rest. -/
def looseKey? (cs : List Char) : Option (String × List Char) :=
  match cs with
  | '"' :: rest => looseString? rest
  | _ =>
    match cs.takeWhile fun c => c.isAlphanum || c == '_' || c == '-' with
    | [] => none
    | key => some (String.ofList key, cs.dropWhile fun c => c.isAlphanum || c == '_' || c == '-')

mutual

/-- A value with white space around it, and the rest. -/
def looseValue? : Nat → List Char → Option (Toml × List Char)
  | 0, _ => none
  | fuel + 1, cs =>
    let read? : Option (Toml × List Char) :=
      match skipWhite cs with
      | 't' :: 'r' :: 'u' :: 'e' :: rest => some (.boolean true, rest)
      | 'f' :: 'a' :: 'l' :: 's' :: 'e' :: rest => some (.boolean false, rest)
      | '\x7b' :: rest =>
        (looseEntries? fuel [] rest).map fun (entries, rest) => (.table entries, rest)
      | '[' :: rest => (looseItems? fuel rest).map fun (items, rest) => (.array items, rest)
      | '"' :: rest => (looseString? rest).map fun (string, rest) => (.text string, rest)
      | '\'' :: c :: '\'' :: rest => some (.text (String.ofList [c]), rest)
      | '\'' :: _ => none
      | cs =>
        some (looseScalar (cs.takeWhile fun c => !isDelimiter c),
          cs.dropWhile fun c => !isDelimiter c)
    read?.map fun (value, rest) => (value, skipWhite rest)

/-- The items of an array up to its closing bracket, which may follow a comma. -/
def looseItems? : Nat → List Char → Option (List Toml × List Char)
  | 0, _ => none
  | _ + 1, ']' :: rest => some ([], rest)
  | fuel + 1, cs => do
    let (item, rest) ← looseValue? fuel cs
    match rest with
    | ',' :: rest =>
      let (items, rest) ← looseItems? fuel rest
      return (item :: items, rest)
    | ']' :: rest => return ([item], rest)
    | _ => none

/-- The entries of a table up to its closing brace, put into the entries before them. -/
def looseEntries? : Nat → List (String × Toml) → List Char →
    Option (List (String × Toml) × List Char)
  | 0, _, _ => none
  | _ + 1, before, '\x7d' :: rest => some (before, rest)
  | fuel + 1, before, cs => do
    let (key, rest) ← looseKey? (skipWhite cs)
    match skipWhite rest with
    | '=' :: rest =>
      let (value, rest) ← looseValue? fuel rest
      let entries := putEntry key value before
      match rest with
      | ',' :: rest => looseEntries? fuel entries rest
      | '\x7d' :: rest => return (entries, rest)
      | _ => none
    | _ => none

end

/-- The value of a text.  What has no other form is a text as it is. -/
def looseValue (text : String) : Toml :=
  let cs := text.toList
  match looseValue? (2 * cs.length + 2) cs with
  | some (value, []) => value
  | _ => .text text

/-- The value in tables with the given keys, the first one outside. -/
def nest (value : Toml) : List String → Toml
  | [] => value
  | key :: path => .table [(key, nest value path)]

end Toml

/-- Write a point for every two underscores. -/
def pointSeparators : List Char → List Char
  | '_' :: '_' :: rest => '.' :: pointSeparators rest
  | c :: rest => c :: pointSeparators rest
  | [] => []

/-- The path of the setting that a variable gives: the parts of its name behind the prefix, in
lower case.  A name with an empty part gives no setting. -/
def settingPath? (start name : String) : Option (List String) :=
  let lowered (cs : List Char) := cs.map Char.toLower
  let name := (trim name).toList
  if lowered start.toList <+: lowered name then
    let key := strip isBlank (name.drop start.toList.length)
    let path := fields '.' (pointSeparators (lowered key))
    if path.any List.isEmpty then none else some (path.map String.ofList)
  else none

/-- The settings of an environment, where later variables go over earlier ones. -/
def environmentSettings (start : String) (environment : List (String × String)) : Toml :=
  environment.foldl
    (fun settings (name, text) =>
      match settingPath? start name with
      | none => settings
      | some path => settings.overlay ((Toml.looseValue text).nest path))
    (.table [])

end TransferRules
