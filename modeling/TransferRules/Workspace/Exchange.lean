import TransferRules.Json.Record
import TransferRules.Workspace.Basic

/-!
# Features and macros as JSON

The records for a feature that is asked for, and for a macro as its callers see it.
-/

namespace TransferRules

/-- A feature that is asked for. -/
def FeatureQuery.ofJson? (json : Json) : Option FeatureQuery := do
  let r ← json.record? ["category", "label", "is_affix", "default", "is_source"]
  let category ← r.required? "category" Json.string?
  let label ← r.required? "label" Json.string?
  let isAffix ← r.required? "is_affix" Json.boolean?
  let fallback ← r.optional? "default" Json.string?
  let isSource ← r.required? "is_source" Json.boolean?
  return { key := { category, label, isAffix, isSource }, fallback }

/-- A feature that is asked for, as a record. -/
def FeatureQuery.toJson (q : FeatureQuery) : Json :=
  .object [("category", .string q.key.category), ("label", .string q.key.label),
    ("is_affix", .boolean q.key.isAffix), ("default", .ofOption .string q.fallback),
    ("is_source", .boolean q.key.isSource)]

/-- A macro as a record. -/
def MacroHandle.toJson (h : MacroHandle) : Json :=
  .object [("macro_id", .string h.name), ("variable_id", .string h.result),
    ("category_sequence", .ofStrings h.categories)]

end TransferRules
