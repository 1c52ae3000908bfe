import TransferRules.Ordered.StringSet
import TransferRules.Rule.Disjoint
import TransferRules.Transfer.Names

/-!
# Workspaces

A transfer document under construction comes with three tables that have to stay in step with
it: the names in use, the value sets of the attributes, and the macros that were made or found.

## Main Definitions

* `FeatureKey`, `FeatureQuery` — a feature for which an attribute is wanted
* `AttributeTable` — the value sets of attributes and the features resolved so far
* `MacroHandle`, `MacroTable` — a macro as its callers see it, and the macros resolved so far
* `Workspace` — a document and its tables
* `Workspace.ensureVariable` — define a variable unless it is defined
-/

namespace TransferRules

open TransferRules.Markup
open TransferRules.Ordered
open TransferRules.Text
open TransferRules.Transfer

/-- What the values of a feature depend on: its category and label, whether it is an affix, and
whether the source lexicon is asked. -/
structure FeatureKey where
  category : String
  label : String
  isAffix : Bool
  isSource : Bool := false
  deriving Repr, DecidableEq

/-- A feature for which an attribute is wanted, with the value of unmarked words if there is
one. -/
structure FeatureQuery where
  key : FeatureKey
  fallback : Option String := none
  deriving Repr, DecidableEq

/-- The identifier from which the name of the attribute is made. -/
def FeatureQuery.stem (q : FeatureQuery) : String :=
  let base := q.key.category ++ "_" ++ q.key.label
  identifier
    (match q.fallback with
    | some fallback => base ++ "_or_" ++ fallback
    | none => base)

/-- The value sets of the attributes in the order of their definition, and the names of the
attributes that were resolved for features. -/
structure AttributeTable where
  valueSets : List (String × StringSet) := []
  resolved : List (FeatureKey × String) := []
  deriving DecidableEq

/-- A macro as its callers see it: its name, the variable that it sets, and the categories
whose lemmas it looks at. -/
structure MacroHandle where
  name : String
  result : String
  categories : List String
  deriving Repr, DecidableEq

/-- The lemma macros resolved so far, by category and label, and the last disjoint macro. -/
structure MacroTable where
  lemmaMacros : List ((String × String) × MacroHandle) := []
  disjoint : Option (DisjointSet × MacroHandle) := none
  deriving Repr, DecidableEq

namespace MacroTable

/-- The lemma macro resolved for a feature. -/
def lemmaMacro? (t : MacroTable) (category label : String) : Option MacroHandle :=
  (t.lemmaMacros.find? fun entry => entry.1 == (category, label)).map Prod.snd

/-- Forget the macros with the given names. -/
def forget (t : MacroTable) (names : List String) : MacroTable where
  lemmaMacros := t.lemmaMacros.filter fun entry => !names.contains entry.2.name
  disjoint := t.disjoint.filter fun entry => !names.contains entry.2.name

end MacroTable

/-- A transfer document and the tables that belong to it. -/
structure Workspace where
  document : TransferDocument := .blank
  names : NameTable := {}
  attributes : AttributeTable := {}
  macros : MacroTable := {}
  deriving DecidableEq

/-- The tags that an attribute definition lists. -/
def attributeItems (e : Element) : List String :=
  (e.childrenNamed "attr-item").filterMap fun item => item.attribute? "tags"

/-- The value sets of the named attributes of a document. -/
def AttributeTable.ofDocument (d : TransferDocument) : AttributeTable where
  valueSets := (d.definitions .attributes).filterMap fun e =>
    (e.attribute? "n").map fun name => (name, StringSet.ofList (attributeItems e))

namespace Workspace

/-- The workspace of a document that was loaded. -/
def ofDocument (d : TransferDocument) : Workspace where
  document := d
  names := .ofDocument d
  attributes := .ofDocument d

/-- Take a name and add a definition that has it. -/
def define (w : Workspace) (kind : SectionKind) (name : String) (e : Element) : Workspace :=
  { w with
    names := w.names.reserve kind name
    document := w.document.addDefinition kind e }

/-- Take a free name. -/
def allocate (w : Workspace) (kind : SectionKind) (base : String) : String × Workspace :=
  let (name, names) := w.names.allocate kind base
  (name, { w with names })

/-- The definition of a variable. -/
def variableElement (name : String) (comment? : Option String) : Element :=
  ⟨"def-var", [("n", name)] ++ (comment?.map fun comment => ("c", comment)).toList, []⟩

/-- Define a variable unless it is defined. -/
def ensureVariable (w : Workspace) (name : String) (comment? : Option String) : Workspace :=
  if w.document.contains .vars name then w
  else w.define .vars name (variableElement name comment?)

end Workspace

end TransferRules
