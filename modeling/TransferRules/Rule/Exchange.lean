import TransferRules.Json.Record
import TransferRules.Rule.Basic
import TransferRules.Rule.Disjoint
import TransferRules.Text.Numeral

/-!
# Rules as JSON

Rules and disjoint feature sets as records.  A binding is an object whose only key says what
kind of binding it is.

## Main Definitions

* `Rule.ofJson?`, `Rule.toJson` — rules
* `DisjointSet.ofJson?`, `DisjointSet.toJson` — disjoint feature sets
-/

namespace TransferRules

/-- A binding. -/
def Binding.ofJson? : Json → Option Binding
  | .object [("Match", .string label)] => some (.agreement label)
  | .object [("Fixed", .string value)] => some (.fixed value)
  | _ => none

/-- A binding as an object. -/
def Binding.toJson : Binding → Json
  | .agreement label => .object [("Match", .string label)]
  | .fixed value => .object [("Fixed", .string value)]

/-- A feature. -/
def Feature.ofJson? (json : Json) : Option Feature := do
  let r ← json.record? ["label", "binding", "ranking", "default"]
  let label ← r.required? "label" Json.string?
  let binding ← r.required? "binding" Binding.ofJson?
  let ranking ← r.optional? "ranking" (Json.natural? Text.wordBound)
  let fallback ← r.optional? "default" Json.string?
  return { label, binding, ranking, fallback }

/-- A feature as a record. -/
def Feature.toJson (f : Feature) : Json :=
  .object [("label", .string f.label), ("binding", f.binding.toJson),
    ("ranking", .ofOption .natural f.ranking), ("default", .ofOption .string f.fallback)]

/-- The side of an affix. -/
def AffixSide.ofJson? (json : Json) : Option AffixSide :=
  match json.alternative? with
  | some "Prefix" => some .before
  | some "Suffix" => some .after
  | _ => none

/-- The name of a side. -/
def AffixSide.name : AffixSide → String
  | .before => "Prefix"
  | .after => "Suffix"

/-- An affix. -/
def Affix.ofJson? (json : Json) : Option Affix := do
  let r ← json.record? ["affix_type", "features"]
  let side ← r.required? "affix_type" AffixSide.ofJson?
  let features ← r.required? "features" (Json.list? Feature.ofJson?)
  return { side, features }

/-- An affix as a record. -/
def Affix.toJson (a : Affix) : Json :=
  .object [("affix_type", .string a.side.name), ("features", .ofList Feature.toJson a.features)]

/-- A word of a source phrase. -/
def SourceWord.ofJson? (json : Json) : Option SourceWord := do
  let r ← json.record? ["id", "category", "features"]
  let id ← r.required? "id" Json.string?
  let category ← r.optional? "category" Json.string?
  let features ← r.required? "features" (Json.list? Feature.ofJson?)
  return { id, category, features }

/-- A word of a source phrase as a record. -/
def SourceWord.toJson (w : SourceWord) : Json :=
  .object [("id", .string w.id), ("category", .ofOption .string w.category),
    ("features", .ofList Feature.toJson w.features)]

/-- A word of a target phrase. -/
def TargetWord.ofJson? (json : Json) : Option TargetWord := do
  let r ← json.record? ["id", "head", "category", "features", "affixes"]
  let id ← r.required? "id" Json.string?
  let isHead ← r.required? "head" Json.boolean?
  let category ← r.optional? "category" Json.string?
  let features ← r.required? "features" (Json.list? Feature.ofJson?)
  let affixes ← r.required? "affixes" (Json.list? Affix.ofJson?)
  return { id, isHead, category, features, affixes }

/-- A word of a target phrase as a record. -/
def TargetWord.toJson (w : TargetWord) : Json :=
  .object [("id", .string w.id), ("head", .boolean w.isHead),
    ("category", .ofOption .string w.category),
    ("features", .ofList Feature.toJson w.features),
    ("affixes", .ofList Affix.toJson w.affixes)]

/-- A rule. -/
def Rule.ofJson? (json : Json) : Option Rule := do
  let r ← json.record? ["name", "source", "target", "create_permutations"]
  let name ← r.required? "name" Json.string?
  let source ← r.required? "source" (Json.list? SourceWord.ofJson?)
  let target ← r.required? "target" (Json.list? TargetWord.ofJson?)
  let permuted ← r.required? "create_permutations" Json.boolean?
  return { name, source, target, permuted }

/-- A rule as a record. -/
def Rule.toJson (r : Rule) : Json :=
  .object [("name", .string r.name), ("source", .ofList SourceWord.toJson r.source),
    ("target", .ofList TargetWord.toJson r.target), ("create_permutations", .boolean r.permuted)]

/-- A pairing of a disjoint feature set. -/
def DisjointPairing.ofJson? (json : Json) : Option DisjointPairing := do
  let r ← json.record? ["co_feature_value", "feature_name"]
  let coValue ← r.required? "co_feature_value" Json.string?
  let part ← r.required? "feature_name" Json.string?
  return { coValue, part }

/-- A pairing as a record. -/
def DisjointPairing.toJson (p : DisjointPairing) : Json :=
  .object [("co_feature_value", .string p.coValue), ("feature_name", .string p.part)]

/-- A disjoint feature set. -/
def DisjointSet.ofJson? (json : Json) : Option DisjointSet := do
  let r ← json.record? ["co_feature", "disjoint_name", "pairings"]
  let coFeature ← r.required? "co_feature" Json.string?
  let name ← r.required? "disjoint_name" Json.string?
  let pairings ← r.required? "pairings" (Json.list? DisjointPairing.ofJson?)
  return { coFeature, name, pairings }

/-- A disjoint feature set as a record. -/
def DisjointSet.toJson (s : DisjointSet) : Json :=
  .object [("co_feature", .string s.coFeature), ("disjoint_name", .string s.name),
    ("pairings", .ofList DisjointPairing.toJson s.pairings)]

end TransferRules
