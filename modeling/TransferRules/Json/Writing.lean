import TransferRules.Json.Basic

/-!
# Writing JSON

Values are written on one line, or with one item a line and two spaces a level.  Strings escape
quotes, backslashes and control characters, and nothing else.

## Main Definitions

* `Json.compact` — the text on one line
* `Json.pretty` — the text with one item on a line
-/

namespace TransferRules.Json

/-- The sixteen digits of hexadecimal numbers. -/
def hexDigit (n : Nat) : Char := "0123456789abcdef".toList.getD n '0'

/-- How a character stands in a string. -/
def escapeChar (c : Char) : List Char :=
  match c with
  | '"' => ['\\', '"']
  | '\\' => ['\\', '\\']
  | '\n' => ['\\', 'n']
  | '\r' => ['\\', 'r']
  | '\t' => ['\\', 't']
  | '\x08' => ['\\', 'b']
  | '\x0c' => ['\\', 'f']
  | c =>
    if c.toNat < 0x20 then ['\\', 'u', '0', '0', hexDigit (c.toNat / 16), hexDigit (c.toNat % 16)]
    else [c]

/-- A string in quotes. -/
def quoted (text : String) : String :=
  "\"" ++ String.ofList (text.toList.flatMap escapeChar) ++ "\""

mutual

/-- The text of a value on one line. -/
def compact : Json → String
  | null => "null"
  | boolean value => if value then "true" else "false"
  | natural value => toString value
  | number text => text
  | string text => quoted text
  | array items => "[" ++ String.intercalate "," (compactItems items) ++ "]"
  | object members => "\x7b" ++ String.intercalate "," (compactMembers members) ++ "\x7d"
  | illFormed => "null"

/-- The texts of the items of an array. -/
def compactItems : List Json → List String
  | [] => []
  | item :: items => item.compact :: compactItems items

/-- The texts of the members of an object. -/
def compactMembers : List (String × Json) → List String
  | [] => []
  | (key, value) :: members => (quoted key ++ ":" ++ value.compact) :: compactMembers members

end

/-- A line break and the spaces of a level. -/
def lineBreak (level : Nat) : String := "\n" ++ String.ofList (List.replicate (2 * level) ' ')

/-- Texts between brackets, each on a line of its own; nothing between empty brackets. -/
def bracketLines (opening closing : String) (level : Nat) (texts : List String) : String :=
  if texts.isEmpty then opening ++ closing
  else
    opening ++ lineBreak (level + 1) ++ String.intercalate ("," ++ lineBreak (level + 1)) texts ++
      lineBreak level ++ closing

mutual

/-- The text of a value at some level, with one item on a line. -/
def prettyAt (level : Nat) : Json → String
  | array items => bracketLines "[" "]" level (prettyItems (level + 1) items)
  | object members => bracketLines "\x7b" "\x7d" level (prettyMembers (level + 1) members)
  | null => "null"
  | boolean value => if value then "true" else "false"
  | natural value => toString value
  | number text => text
  | string text => quoted text
  | illFormed => "null"

/-- The texts of the items of an array. -/
def prettyItems (level : Nat) : List Json → List String
  | [] => []
  | item :: items => prettyAt level item :: prettyItems level items

/-- The texts of the members of an object. -/
def prettyMembers (level : Nat) : List (String × Json) → List String
  | [] => []
  | (key, value) :: members =>
    (quoted key ++ ": " ++ prettyAt level value) :: prettyMembers level members

end

/-- The text of a value with one item on a line. -/
def pretty (json : Json) : String := prettyAt 0 json

end TransferRules.Json
