import TransferRules.Failure
import TransferRules.Text.Fields
import TransferRules.Text.Lowercase

/-!
# Settings

The settings of a run: how rules are permuted and files are written, and how the run is logged.
Every setting has a default.

## Main Definitions

* `GeneratorSettings`, `LoggingSettings`, `Settings` — the settings
* `LoggingSettings.directory?` — where the log is kept
* `LogLevel.parse?` — the level that a text names
* `Settings.fault?` — the first setting out of range
-/

namespace TransferRules

/-- How rules are permuted and files are written. -/
structure GeneratorSettings where
  /-- Spaces per level of a written file. -/
  indent : Nat := 2
  /-- How many words of a rule with permutations may be left out. -/
  maxPermutationWords : Nat := 10
  /-- Whether a new file gets a document type. -/
  doctype : Bool := true
  /-- Whether rules are permuted if neither they nor their document say so. -/
  createPermutations : Bool := false
  deriving Repr, DecidableEq

/-- How a run is logged. -/
structure LoggingSettings where
  level : String := "info"
  jsonFormat : Bool := false
  fileOutput : Option String := none
  deriving Repr, DecidableEq

/-- The directory of the log file, unless the path of the file is just a name.  At the end of the
path a slash or a point does not count. -/
def LoggingSettings.directory? (s : LoggingSettings) : Option String := do
  let path ← s.fileOutput
  let isEmptyPart (part : String) := part.isEmpty || part == "."
  let parts := (Text.fieldsOf '/' path).reverse.dropWhile isEmptyPart
  let directory := "/".intercalate (parts.drop 1).reverse
  if directory.isEmpty then none else some directory

/-- All settings. -/
structure Settings where
  generator : GeneratorSettings := {}
  logging : LoggingSettings := {}
  deriving Repr, DecidableEq

/-- How much is logged. -/
inductive LogLevel where
  | trace
  | debug
  | info
  | warn
  | error
  deriving Repr, DecidableEq

namespace LogLevel

/-- The name of a level. -/
def name : LogLevel → String
  | trace => "trace"
  | debug => "debug"
  | info => "info"
  | warn => "warn"
  | error => "error"

/-- All levels. -/
def all : List LogLevel := [trace, debug, info, warn, error]

/-- The level that a text names in whatever case. -/
def parse? (text : String) : Option LogLevel :=
  let lowered := Text.lowercase text
  if lowered = "warning" then some warn else all.find? fun level => level.name == lowered

end LogLevel

/-- A setting out of range. -/
inductive SettingsFault where
  | indentTooLarge (indent : Nat)
  | permutationWordsOutOfRange (words : Nat)
  | unknownLevel (text : String)
  deriving Repr, DecidableEq

/-- The largest indentation. -/
def indentBound : Nat := 8

/-- The largest number of words that a rule with permutations may leave out. -/
def permutationWordsBound : Nat := 16

/-- The wording of a fault. -/
def SettingsFault.message : SettingsFault → String
  | .indentTooLarge indent =>
    "generator.indent must be at most " ++ toString indentBound ++ ", got " ++ toString indent
  | .permutationWordsOutOfRange words =>
    "generator.max_permutation_words must be between 1 and " ++ toString permutationWordsBound ++
      ", got " ++ toString words
  | .unknownLevel text =>
    "Invalid log level: " ++ text ++ ". Use trace, debug, info, warn, or error"

/-- The failure that a fault is. -/
def SettingsFault.toFailure (fault : SettingsFault) : Failure := .settings fault.message

/-- The level that a text names, or the fault of the text. -/
def LogLevel.parse (text : String) : Except SettingsFault LogLevel :=
  match LogLevel.parse? text with
  | some level => .ok level
  | none => .error (.unknownLevel text)

/-- The first setting out of range. -/
def GeneratorSettings.fault? (s : GeneratorSettings) : Option SettingsFault :=
  if indentBound < s.indent then some (.indentTooLarge s.indent)
  else if s.maxPermutationWords = 0 ∨ permutationWordsBound < s.maxPermutationWords then
    some (.permutationWordsOutOfRange s.maxPermutationWords)
  else none

/-- The first setting out of range; those of the generator come first. -/
def Settings.fault? (s : Settings) : Option SettingsFault :=
  match s.generator.fault? with
  | some fault => some fault
  | none =>
    match LogLevel.parse s.logging.level with
    | .ok _ => none
    | .error fault => some fault

end TransferRules
