import TransferRules.Ordered.Reach
import TransferRules.Ordered.StringMap
import TransferRules.Text.Blank

/-!
# Lexicons

A lexicon is what a lexical project knows about a language: its grammatical categories, each
below at most one other, and for every feature of a category the values it can take and the
lemmas and affix glosses that express them.  Features under the empty category apply to every
category.

## Main Definitions

* `Exponent` — a form and the feature value it expresses
* `FeatureEntry` — what is known about one feature of one category
* `Lexicon` — categories and features of a language
* `Lexicon.subcategories` — the categories below a category
* `Lexicon.fault?` — the first inconsistency

## Design Notes

Every question has an answer: about an unknown category or feature nothing is known.  The
links between categories may form cycles; the search for subcategories does not mind.
-/

namespace TransferRules

open TransferRules.Ordered

/-- A form, a lemma or an affix gloss, and the feature value that it expresses. -/
structure Exponent where
  form : String
  value : String
  deriving Repr, DecidableEq

/-- What is known about one feature of one category: the values of the feature itself, and the
lemmas and affix glosses that express them. -/
structure FeatureEntry where
  values : List String := []
  lemmas : List Exponent := []
  affixes : List Exponent := []
  deriving Repr, DecidableEq

/-- The categories of a language, with the category above each, and its features, by category
and label. -/
structure Lexicon where
  projectName : String
  categories : StringMap (Option String) := .empty
  features : StringMap (StringMap FeatureEntry) := .empty
  deriving DecidableEq

/-- An inconsistency of a lexicon. -/
inductive LexiconFault where
  | blankProjectName
  | unknownParent (category parent : String)
  | unknownCategory (category : String)
  deriving Repr, DecidableEq

/-- The wording of an inconsistency. -/
def LexiconFault.message : LexiconFault → String
  | .blankProjectName => "project_name must not be empty"
  | .unknownParent category parent =>
    "category '" ++ category ++ "' has unknown parent '" ++ parent ++ "'"
  | .unknownCategory category => "features listed for unknown category '" ++ category ++ "'"

namespace Lexicon

/-- The names of the categories in ascending order. -/
def categoryNames (x : Lexicon) : List String := x.categories.keys

/-- The category directly above a category. -/
def parent? (x : Lexicon) (category : String) : Option String :=
  (x.categories.find? category).join

/-- The categories directly below a category. -/
def children (x : Lexicon) (category : String) : List String :=
  (x.categories.entries.filter fun entry => entry.2 == some category).map Prod.fst

/-- The categories below a category at any depth, in the order in which a search finds them
that goes down from the category found last. -/
def subcategories (x : Lexicon) (category : String) : List String :=
  (explore x.categoryNames x.children [category] [category]).tail

/-- What is known about a feature. -/
def lookup? (x : Lexicon) (category label : String) : Option FeatureEntry :=
  (x.features.find? category).bind fun labels => labels.find? label

/-- The values of a feature. -/
def values (x : Lexicon) (category label : String) : List String :=
  ((x.lookup? category label).map FeatureEntry.values).getD []

/-- The lemmas of a category that express values of a feature. -/
def lemmas (x : Lexicon) (category label : String) : List Exponent :=
  ((x.lookup? category label).map FeatureEntry.lemmas).getD []

/-- The affix glosses of a category that express values of a feature. -/
def affixes (x : Lexicon) (category label : String) : List Exponent :=
  ((x.lookup? category label).map FeatureEntry.affixes).getD []

/-- The first inconsistency: a blank name, a parent that is no category, or features of
something that is no category. -/
def fault? (x : Lexicon) : Option LexiconFault :=
  if (Text.trim x.projectName).isEmpty then some .blankProjectName
  else
    (x.categories.entries.findSome? fun (category, parent?) =>
      parent?.bind fun parent =>
        if x.categories.contains parent then none else some (.unknownParent category parent)) <|>
    (x.features.keys.findSome? fun category =>
      if category.isEmpty || x.categories.contains category then none
      else some (.unknownCategory category))

/-- A lexicon that knows nothing. -/
def named (projectName : String) : Lexicon := { projectName }

/-- Add a category below `parent?`. -/
def addCategory (x : Lexicon) (category : String) (parent? : Option String) : Lexicon :=
  { x with categories := x.categories.insert category parent? }

/-- Change what is known about a feature. -/
def updateEntry (x : Lexicon) (category label : String) (f : FeatureEntry → FeatureEntry) :
    Lexicon :=
  { x with features := x.features.update category fun labels? =>
      (labels?.getD .empty).update label fun known? => f (known?.getD {}) }

/-- Add values of a feature. -/
def addValues (x : Lexicon) (category label : String) (values : List String) : Lexicon :=
  x.updateEntry category label fun entry => { entry with values := entry.values ++ values }

/-- Add lemmas that express values of a feature. -/
def addLemmas (x : Lexicon) (category label : String) (lemmas : List Exponent) : Lexicon :=
  x.updateEntry category label fun entry => { entry with lemmas := entry.lemmas ++ lemmas }

/-- Add affix glosses that express values of a feature. -/
def addAffixes (x : Lexicon) (category label : String) (affixes : List Exponent) : Lexicon :=
  x.updateEntry category label fun entry => { entry with affixes := entry.affixes ++ affixes }

end Lexicon

end TransferRules
