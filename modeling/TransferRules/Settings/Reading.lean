import TransferRules.Files.Access
import TransferRules.Settings.Environment
import TransferRules.Settings.Exchange
import TransferRules.Toml.Reading

/-!
# Reading settings

Settings are taken from a file and from the environment, which goes over the file.  The file is
the one that was asked for, or else the first one that is there among the usual places; without
a file the defaults remain.

## Main Definitions

* `Settings.ofToml?` — the settings in a table
* `Settings.load` — the settings in effect

## Design Notes

A group of settings may also be written as a list of its values in order.  Unlike in a record
of JSON, what is too much in the list is skipped.
-/

namespace TransferRules

namespace Toml

/-- The fields of a group of settings. -/
def fields? (names : List String) : Toml → Option (List (String × Toml))
  | .table entries => some entries
  | .array items => some (names.zip items)
  | _ => none

/-- A field with a default. -/
def withDefault? {α : Type} (fields : List (String × Toml)) (name : String) (default : α)
    (value? : Toml → Option α) : Option α :=
  match find? name fields with
  | none => some default
  | some value => value? value

/-- A truth value. -/
def boolean? : Toml → Option Bool
  | .boolean value => some value
  | _ => none

/-- A non-negative integer below a bound. -/
def natural? (bound : Nat) : Toml → Option Nat
  | .integer (.ofNat n) => if n < bound then some n else none
  | _ => none

/-- A text. -/
def text? : Toml → Option String
  | .text value => some value
  | _ => none

end Toml

/-- The settings of the generator. -/
def GeneratorSettings.ofToml? (value : Toml) : Option GeneratorSettings := do
  let fs ← value.fields? ["indent", "max_permutation_words", "doctype", "create_permutations"]
  let indent ← Toml.withDefault? fs "indent" 2 (Toml.natural? settingBound)
  let maxPermutationWords ←
    Toml.withDefault? fs "max_permutation_words" 10 (Toml.natural? settingBound)
  let doctype ← Toml.withDefault? fs "doctype" true Toml.boolean?
  let createPermutations ← Toml.withDefault? fs "create_permutations" false Toml.boolean?
  return { indent, maxPermutationWords, doctype, createPermutations }

/-- The settings of the log. -/
def LoggingSettings.ofToml? (value : Toml) : Option LoggingSettings := do
  let fs ← value.fields? ["level", "json_format", "file_output"]
  let level ← Toml.withDefault? fs "level" "info" Toml.text?
  let jsonFormat ← Toml.withDefault? fs "json_format" false Toml.boolean?
  let fileOutput ← Toml.withDefault? fs "file_output" none fun value => value.text?.map some
  return { level, jsonFormat, fileOutput }

/-- All settings. -/
def Settings.ofToml? (value : Toml) : Option Settings := do
  let fs ← value.fields? ["generator", "logging"]
  let generator ← Toml.withDefault? fs "generator" {} GeneratorSettings.ofToml?
  let logging ← Toml.withDefault? fs "logging" {} LoggingSettings.ofToml?
  return { generator, logging }

/-- Where settings are looked for. -/
structure SettingsSource where
  /-- The file that was asked for. -/
  path : Option String := none
  /-- The directory in which programs keep the settings of the user. -/
  userDirectory : Option String := none
  environment : List (String × String) := []
  /-- How the names of environment variables with settings start. -/
  variableStart : String := "RULEGEN__"

/-- The name of a settings file. -/
def settingsFileName : String := "rulegen.toml"

/-- The places where settings are usually kept, in the order in which they are tried. -/
def SettingsSource.usualPlaces (x : SettingsSource) : List String :=
  let inDirectory := "rulegen/" ++ settingsFileName
  [settingsFileName, inDirectory] ++
    (x.userDirectory.map fun directory => directory ++ "/" ++ inDirectory).toList

namespace Settings

variable {m : Type → Type} [Monad m]

/-- The first path at which something is present. -/
def firstPresent (files : FileAccess m) : List String → m (Option String)
  | [] => return none
  | path :: paths => do
    if ← files.isPresent path then return some path else firstPresent files paths

/-- The file in which the settings are; one that was asked for has to be there. -/
def locate (files : FileAccess m) (source : SettingsSource) :
    m (Except Failure (Option String)) := do
  match source.path with
  | none => return .ok (← firstPresent files source.usualPlaces)
  | some path =>
    if ← files.isPresent path then return .ok (some path)
    else return .error (.settings ("Configuration file not found: " ++ path))

/-- The table in a file; a directory in its place counts as an empty file. -/
def tableOf? : Except FileError String → Option Toml
  | .ok text => Toml.parse? text
  | .error .isDirectory => some (.table [])
  | .error _ => none

/-- The settings of a file and an environment, unless one is out of range. -/
def combine (table? : Option Toml) (source : SettingsSource) : Except Failure Settings :=
  let settings? := do
    let table ← table?
    Settings.ofToml? (table.overlay (environmentSettings source.variableStart source.environment))
  match settings? with
  | none => .error .unreadableSettings
  | some settings =>
    match settings.fault? with
    | some fault => .error fault.toFailure
    | none => .ok settings

/-- The settings in effect. -/
def load (files : FileAccess m) (source : SettingsSource) : m (Except Failure Settings) := do
  match ← locate files source with
  | .error failure => return .error failure
  | .ok none => return combine (some (.table [])) source
  | .ok (some path) => return combine (tableOf? (← files.read path)) source

end Settings

end TransferRules
