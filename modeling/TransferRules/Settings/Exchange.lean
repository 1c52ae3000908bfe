import TransferRules.Json.Record
import TransferRules.Settings.Basic

/-!
# Settings as JSON

Records with the names that the settings have in a settings file.  Every field has a default.

## Main Definitions

* `Settings.ofJson?`, `Settings.toJson` — the format
-/

namespace TransferRules

/-- The numbers among the settings lie below this bound. -/
def settingBound : Nat := 18446744073709551616

/-- The settings of the generator. -/
def GeneratorSettings.ofJson? (json : Json) : Option GeneratorSettings := do
  let r ← json.record? ["indent", "max_permutation_words", "doctype", "create_permutations"]
  let indent ← r.withDefault? "indent" 2 (Json.natural? settingBound)
  let maxPermutationWords ← r.withDefault? "max_permutation_words" 10 (Json.natural? settingBound)
  let doctype ← r.withDefault? "doctype" true Json.boolean?
  let createPermutations ← r.withDefault? "create_permutations" false Json.boolean?
  return { indent, maxPermutationWords, doctype, createPermutations }

/-- The settings of the generator as a record. -/
def GeneratorSettings.toJson (s : GeneratorSettings) : Json :=
  .object [("indent", .natural s.indent),
    ("max_permutation_words", .natural s.maxPermutationWords),
    ("doctype", .boolean s.doctype), ("create_permutations", .boolean s.createPermutations)]

/-- The settings of the log. -/
def LoggingSettings.ofJson? (json : Json) : Option LoggingSettings := do
  let r ← json.record? ["level", "json_format", "file_output"]
  let level ← r.withDefault? "level" "info" Json.string?
  let jsonFormat ← r.withDefault? "json_format" false Json.boolean?
  let fileOutput ← r.withDefault? "file_output" none (Json.nullable? Json.string?)
  return { level, jsonFormat, fileOutput }

/-- The settings of the log as a record. -/
def LoggingSettings.toJson (s : LoggingSettings) : Json :=
  .object [("level", .string s.level), ("json_format", .boolean s.jsonFormat),
    ("file_output", .ofOption .string s.fileOutput)]

/-- All settings. -/
def Settings.ofJson? (json : Json) : Option Settings := do
  let r ← json.record? ["generator", "logging"]
  let generator ← r.withDefault? "generator" {} GeneratorSettings.ofJson?
  let logging ← r.withDefault? "logging" {} LoggingSettings.ofJson?
  return { generator, logging }

/-- All settings as a record. -/
def Settings.toJson (s : Settings) : Json :=
  .object [("generator", s.generator.toJson), ("logging", s.logging.toJson)]

end TransferRules
