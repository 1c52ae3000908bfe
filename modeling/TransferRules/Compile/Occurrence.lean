import TransferRules.Rule.Basic

/-!
# Feature occurrences

Before a rule is compiled, every feature of it that can provide or use a value is listed with
the place where it occurs: first the features of source words that agree with others, then all
features of target words and their affixes.

## Main Definitions

* `Site` — on which part of a word a feature occurs
* `Occurrence` — a feature at its place
* `Rule.occurrences` — the list
-/

namespace TransferRules.Compile

/-- The part of a word on which a feature occurs. -/
inductive Site where
  | source
  | word
  | affix (index : Nat)
  deriving Repr, DecidableEq

/-- Whether the site is an affix. -/
def Site.isAffix : Site → Bool
  | affix _ => true
  | _ => false

/-- A feature at its place in a rule. -/
structure Occurrence where
  wordId : String
  /-- The position of the source word, counted from one. -/
  position : Nat
  /-- The category by which the lexicon of its own side knows the word. -/
  category : String
  sourceCategory : String
  onHead : Bool
  site : Site
  /-- The place of the target word in its phrase. -/
  targetIndex : Option Nat
  feature : Feature
  deriving Repr, DecidableEq

namespace Occurrence

/-- The match label of the feature. -/
def label? (o : Occurrence) : Option String := o.feature.binding.label?

/-- Whether the feature uses the value of its match label for the output: affixes do, and the
words that are not the head, which choose a lemma. -/
def isConsumer (o : Occurrence) : Bool :=
  match o.site with
  | .source => false
  | .word => !o.onHead
  | .affix _ => true

end Occurrence

end TransferRules.Compile

namespace TransferRules.Rule

open TransferRules.Compile

/-- The occurrences on a source word. -/
def sourceOccurrences (r : Rule) (w : SourceWord) (position : Nat) : List Occurrence :=
  (w.features.filter fun f => f.binding.label?.isSome).map fun feature =>
    { wordId := w.id
      position
      category := w.categoryName
      sourceCategory := w.categoryName
      onHead := r.head?.map TargetWord.id == some w.id
      site := .source
      targetIndex := none
      feature }

/-- The features of a target word and of its affixes, with their sites. -/
def targetFeatures (w : TargetWord) : List (Site × Feature) :=
  w.features.map (fun f => (.word, f)) ++
    w.affixes.zipIdx.flatMap fun (affix, index) => affix.features.map fun f => (.affix index, f)

/-- The category of a target word: its own, or else that of the source word. -/
def targetCategory (r : Rule) (w : TargetWord) : String :=
  w.category.getD (r.sourceCategory w.id)

/-- The occurrences on a target word, none if it translates no source word. -/
def targetOccurrences (r : Rule) (w : TargetWord) (index : Nat) : List Occurrence :=
  match r.position? w.id with
  | none => []
  | some position =>
    (targetFeatures w).map fun (site, feature) =>
      { wordId := w.id
        position
        category := r.targetCategory w
        sourceCategory := r.sourceCategory w.id
        onHead := w.isHead
        site
        targetIndex := some index
        feature }

/-- The occurrences of a rule in document order, those of the source phrase first. -/
def occurrences (r : Rule) : List Occurrence :=
  (r.source.zipIdx.flatMap fun (w, index) => r.sourceOccurrences w (index + 1)) ++
    r.target.zipIdx.flatMap fun (w, index) => r.targetOccurrences w index

end TransferRules.Rule
