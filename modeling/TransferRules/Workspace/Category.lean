import TransferRules.Lexicon.Basic
import TransferRules.Workspace.Basic

/-!
# Pattern categories

The pattern of a rule names a category for every source word.  A category covers the
grammatical category of the word and all categories below it, each with any tags behind it;
fixed values of the word have to be among these tags, in their order.

## Main Definitions

* `tagPatterns` — the patterns for one grammatical category
* `Workspace.ensureCategory` — the category of a source word

## Design Notes

In a pattern a star stands for one or more tags.  Since tags may or may not stand between two
values, every value doubles the number of patterns, and so does what may follow the last one.
-/

namespace TransferRules

open TransferRules.Markup
open TransferRules.Text
open TransferRules.Transfer

/-- The patterns for some tags followed by the given values in order. -/
def valuePatterns : List String → List String → List String
  | patterns, [] => patterns
  | patterns, value :: values =>
    valuePatterns
      (patterns.flatMap fun p => [p ++ "." ++ identifier value, p ++ ".*." ++ identifier value])
      values

/-- The patterns for a grammatical category with the given values among its tags. -/
def tagPatterns (category : String) (values : List String) : List String :=
  (valuePatterns [identifier category] values).flatMap fun p => [p, p ++ ".*"]

/-- The name of the category for a word with the given fixed values. -/
def categoryName (category : String) (values : List String) : String :=
  identifier (values.foldl (fun base value => base ++ "_" ++ value) ("c_" ++ category))

/-- The definition of a category that covers some grammatical categories. -/
def categoryElement (name : String) (covered values : List String) : Element :=
  (⟨"def-cat", [("n", name)], []⟩ : Element).pushAll
    ((covered.flatMap fun category => tagPatterns category values).map fun tags =>
      ⟨"cat-item", [("tags", tags)], []⟩)

/-- The name of the category for a word, which is defined unless the name is. -/
def Workspace.ensureCategory (w : Workspace) (x : Lexicon) (category : String)
    (values : List String) : String × Workspace :=
  let name := categoryName category values
  if w.document.contains .categories name then (name, w)
  else
    let covered := category :: x.subcategories category
    (name, w.define .categories name (categoryElement name covered values))

end TransferRules
