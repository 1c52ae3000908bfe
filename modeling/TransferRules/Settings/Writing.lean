import TransferRules.Json.Writing
import TransferRules.Settings.Basic

/-!
# Writing settings

Settings are written with one setting on a line.  A text is written in the plainest form that
shows it as it is: on one line before several, and with escapes only if nothing else will do.

## Main Definitions

* `quoteText` — a text in quotes
* `Settings.write` — the settings file
-/

namespace TransferRules

namespace Quoting

/-- What matters for the choice of quotes. -/
structure Profile where
  /-- Whether there is a control character other than tab and line feed. -/
  hasControl : Bool
  hasBackslash : Bool
  hasBreak : Bool
  /-- The longest run of double and of single quotes. -/
  doubleRun : Nat
  singleRun : Nat

/-- Whether a character is a control character other than tab and line feed. -/
def isControl (c : Char) : Bool :=
  (c.toNat < 0x20 && c != '\t' && c != '\n') || c.toNat == 0x7f

/-- The longest run of a character, of which `run` stand directly before the text. -/
def longestRun (quote : Char) (run : Nat) : List Char → Nat
  | [] => run
  | c :: cs => if c = quote then longestRun quote (run + 1) cs else max run (longestRun quote 0 cs)

/-- The profile of a text. -/
def profile (cs : List Char) : Profile where
  hasControl := cs.any isControl
  hasBackslash := cs.contains '\\'
  hasBreak := cs.contains '\n'
  doubleRun := longestRun '"' 0 cs
  singleRun := longestRun '\'' 0 cs

/-- The four digits of a code. -/
def codeDigits (n : Nat) : List Char :=
  [n / 4096, n / 256 % 16, n / 16 % 16, n % 16].map fun d => (Json.hexDigit d).toUpper

/-- How a character other than a double quote stands between double quotes. -/
def escapeChar (multiline : Bool) (c : Char) : List Char :=
  match c with
  | '\x08' => ['\\', 'b']
  | '\t' => ['\\', 't']
  | '\n' => if multiline then ['\n'] else ['\\', 'n']
  | '\x0c' => ['\\', 'f']
  | '\r' => ['\\', 'r']
  | '\\' => ['\\', '\\']
  | c => if isControl c then '\\' :: 'u' :: codeDigits c.toNat else [c]

/-- How a text stands between double quotes; `free` more quotes may stand in a row without an
escape, and `limit` after any other character. -/
def escapeText (multiline : Bool) (limit free : Nat) : List Char → List Char
  | [] => []
  | c :: cs =>
    if c = '"' then
      match free with
      | 0 => '\\' :: '"' :: escapeText multiline limit limit cs
      | free + 1 => '"' :: escapeText multiline limit free cs
    else escapeChar multiline c ++ escapeText multiline limit limit cs

/-- A text between double quotes. -/
def basic (cs : List Char) : List Char := '"' :: escapeText false 0 0 cs ++ ['"']

/-- A text between single quotes. -/
def literal (cs : List Char) : List Char := '\'' :: cs ++ ['\'']

/-- A line break for a text that has one. -/
def leadingBreak (cs : List Char) : List Char := if cs.contains '\n' then ['\n'] else []

/-- A text between three double quotes. -/
def multilineBasic (cs : List Char) : List Char :=
  ['"', '"', '"'] ++ leadingBreak cs ++ escapeText true 2 2 cs ++ ['"', '"', '"']

/-- A text between three single quotes. -/
def multilineLiteral (cs : List Char) : List Char :=
  ['\'', '\'', '\''] ++ leadingBreak cs ++ cs ++ ['\'', '\'', '\'']

/-- A text in the plainest quotes. -/
def plainest (cs : List Char) : List Char :=
  let p := profile cs
  if !p.hasControl && !p.hasBackslash && p.doubleRun == 0 && !p.hasBreak then basic cs
  else if !p.hasControl && p.singleRun == 0 && !p.hasBreak then literal cs
  else if !p.hasControl && !p.hasBackslash && p.doubleRun ≤ 2 then multilineBasic cs
  else if !p.hasControl && p.singleRun ≤ 2 then multilineLiteral cs
  else if p.hasBreak then multilineBasic cs
  else basic cs

end Quoting

/-- A text in quotes. -/
def quoteText (text : String) : String := String.ofList (Quoting.plainest text.toList)

/-- A truth value. -/
def truthText (value : Bool) : String := if value then "true" else "false"

/-- A line with a setting. -/
def settingLine (name value : String) : String := name ++ " = " ++ value ++ "\n"

namespace Settings

/-- The settings file. -/
def write (s : Settings) : String :=
  "[generator]\n" ++
    settingLine "indent" (toString s.generator.indent) ++
    settingLine "max_permutation_words" (toString s.generator.maxPermutationWords) ++
    settingLine "doctype" (truthText s.generator.doctype) ++
    settingLine "create_permutations" (truthText s.generator.createPermutations) ++
    "\n[logging]\n" ++
    settingLine "level" (quoteText s.logging.level) ++
    settingLine "json_format" (truthText s.logging.jsonFormat) ++
    (match s.logging.fileOutput with
    | some path => settingLine "file_output" (quoteText path)
    | none => "")

end Settings

end TransferRules
