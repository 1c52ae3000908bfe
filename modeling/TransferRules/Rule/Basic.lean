import TransferRules.Text.Identifier

/-!
# Rules

A rule pairs a source phrase, which becomes the pattern of a transfer rule, with a target
phrase, which becomes its output.  Words of the target translate words of the source by id.
Features of words and affixes either have a fixed value or agree with every other feature of
the rule that has the same match label.

## Main Definitions

* `Feature`, `Binding` — a feature of a word or affix, and where its value comes from
* `SourceWord`, `TargetWord`, `Affix` — the words of the two phrases
* `Rule` — a named pair of phrases
* `Rule.retain` — the rule without some of its words
-/

namespace TransferRules

/-- Where the value of a feature comes from. -/
inductive Binding where
  /-- From the features of the rule with the same match label. -/
  | agreement (label : String)
  /-- It is given. -/
  | fixed (value : String)
  deriving Repr, DecidableEq

namespace Binding

/-- The match label of a feature that agrees with others. -/
def label? : Binding → Option String
  | agreement label => some label
  | fixed _ => none

/-- The value of a feature that has a fixed one. -/
def value? : Binding → Option String
  | agreement _ => none
  | fixed value => some value

end Binding

/-- A feature of a word or affix.  Among features that could provide a value a lower ranking
wins; the fallback is the value of a feature that the source leaves unmarked. -/
structure Feature where
  label : String
  binding : Binding
  ranking : Option Nat := none
  fallback : Option String := none
  deriving Repr, DecidableEq

/-- The side of the stem on which an affix stands. -/
inductive AffixSide where
  | before
  | after
  deriving Repr, DecidableEq

/-- The usual word for an affix on this side. -/
def AffixSide.word : AffixSide → String
  | .before => "prefix"
  | .after => "suffix"

/-- An affix of a target word. -/
structure Affix where
  side : AffixSide
  features : List Feature
  deriving Repr, DecidableEq

/-- A word of the source phrase.  Only a faulty rule has words without a category. -/
structure SourceWord where
  id : String
  category : Option String
  features : List Feature := []
  deriving Repr, DecidableEq

namespace SourceWord

/-- The category of a word, empty if it has none. -/
def categoryName (w : SourceWord) : String := w.category.getD ""

/-- The fixed values of a word's features. -/
def fixedValues (w : SourceWord) : List String := w.features.filterMap fun f => f.binding.value?

end SourceWord

/-- A word of the target phrase, which translates the source word with its id.  A category
replaces that of the source word. -/
structure TargetWord where
  id : String
  isHead : Bool := false
  category : Option String := none
  features : List Feature := []
  affixes : List Affix := []
  deriving Repr, DecidableEq

/-- A rule: how a source phrase is translated to a target phrase. -/
structure Rule where
  name : String
  source : List SourceWord := []
  target : List TargetWord := []
  /-- Whether there is to be a rule for every choice of words that may be left out. -/
  permuted : Bool := false
  deriving Repr, DecidableEq

namespace Rule

/-- The first target word that is marked as head. -/
def head? (r : Rule) : Option TargetWord := r.target.find? TargetWord.isHead

/-- The first source word with the given id. -/
def sourceWord? (r : Rule) (id : String) : Option SourceWord := r.source.find? fun w => w.id == id

/-- The position of the first source word with the given id, counted from one. -/
def position? (r : Rule) (id : String) : Option Nat :=
  (r.source.findIdx? fun w => w.id == id).map (· + 1)

/-- The category of the source word with the given id, empty if there is none. -/
def sourceCategory (r : Rule) (id : String) : String :=
  ((r.sourceWord? id).map SourceWord.categoryName).getD ""

/-- The ids of the source words that may be left out: all but the head's. -/
def optionalIds (r : Rule) : List String :=
  (r.source.map SourceWord.id).filter fun id => r.head?.map TargetWord.id != some id

/-- The rule with only the words whose id satisfies `keep`, under a new name. -/
def retain (r : Rule) (name : String) (keep : String → Bool) : Rule where
  name := name
  source := r.source.filter fun w => keep w.id
  target := r.target.filter fun w => keep w.id
  permuted := false

end Rule

end TransferRules
