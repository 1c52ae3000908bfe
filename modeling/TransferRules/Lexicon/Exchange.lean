import TransferRules.Json.Reading
import TransferRules.Json.Record
import TransferRules.Lexicon.Basic

/-!
# Lexicons as JSON

The file format of lexicons: a record with the name of the project, the categories with their
parents, and the features by category and label.

## Main Definitions

* `Lexicon.ofJson?`, `Lexicon.toJson` — the format
* `Lexicon.load` — read a file's text and check the lexicon
-/

namespace TransferRules

open TransferRules.Ordered

/-- A map from strings, written as an object; of repeated keys the last one counts. -/
def Json.stringMap? {α : Type} (value? : Json → Option α) : Json → Option (StringMap α)
  | .object members =>
    (members.mapM fun member => (value? member.2).map fun value => (member.1, value)).map
      StringMap.ofList
  | _ => none

/-- A map from strings as an object. -/
def Json.ofStringMap {α : Type} (f : α → Json) (m : StringMap α) : Json :=
  .object (m.entries.map fun (key, value) => (key, f value))

/-- An exponent, written as a pair of strings. -/
def Exponent.ofJson? (json : Json) : Option Exponent :=
  json.stringPair?.map fun (form, value) => ⟨form, value⟩

/-- An exponent as a pair of strings. -/
def Exponent.toPair (e : Exponent) : Json := .array [.string e.form, .string e.value]

/-- A feature entry, all of whose fields have defaults. -/
def FeatureEntry.ofJson? (json : Json) : Option FeatureEntry := do
  let r ← json.record? ["values", "lemmas", "affixes"]
  let values ← r.withDefault? "values" [] (Json.list? Json.string?)
  let lemmas ← r.withDefault? "lemmas" [] (Json.list? Exponent.ofJson?)
  let affixes ← r.withDefault? "affixes" [] (Json.list? Exponent.ofJson?)
  return { values, lemmas, affixes }

/-- A feature entry as a record. -/
def FeatureEntry.toJson (e : FeatureEntry) : Json :=
  .object [("values", .ofStrings e.values), ("lemmas", .ofList Exponent.toPair e.lemmas),
    ("affixes", .ofList Exponent.toPair e.affixes)]

namespace Lexicon

/-- A lexicon, whose categories and features may be left out. -/
def ofJson? (json : Json) : Option Lexicon := do
  let r ← json.record? ["project_name", "categories", "features"]
  let projectName ← r.required? "project_name" Json.string?
  let categories ←
    r.withDefault? "categories" .empty (Json.stringMap? (Json.nullable? Json.string?))
  let features ← r.withDefault? "features" .empty
    (Json.stringMap? (Json.stringMap? FeatureEntry.ofJson?))
  return { projectName, categories, features }

/-- A lexicon as a record. -/
def toJson (x : Lexicon) : Json :=
  .object [("project_name", .string x.projectName),
    ("categories", .ofStringMap (Json.ofOption .string) x.categories),
    ("features", .ofStringMap (Json.ofStringMap FeatureEntry.toJson) x.features)]

end Lexicon

/-- Why a text is no usable lexicon. -/
inductive LexiconError where
  | notJson
  | fault (fault : LexiconFault)
  deriving Repr, DecidableEq

/-- The consistent lexicon of a file's text. -/
def Lexicon.load (text : String) : Except LexiconError Lexicon :=
  match (Json.parse? text).bind Lexicon.ofJson? with
  | none => .error .notJson
  | some x =>
    match x.fault? with
    | some fault => .error (.fault fault)
    | none => .ok x

end TransferRules
