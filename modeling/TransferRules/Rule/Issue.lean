/-!
# Issues

What can be wrong with a specification without ending the work on it.  Some issues skip the
rule in which they are found, others only lose a feature.

## Main Definitions

* `Severity` — how serious a message is
* `Issue` — a problem of a specification
* `Issue.message`, `Issue.severity`, `Issue.skipsRule` — what is said and done about it
-/

namespace TransferRules

/-- How serious a message is. -/
inductive Severity where
  | error
  | warning
  | info
  deriving Repr, DecidableEq

/-- The mark in front of a message. -/
def Severity.mark : Severity → String
  | .error => "ERROR"
  | .warning => "WARNING"
  | .info => "INFO"

/-- The two phrases of a rule. -/
inductive Phrase where
  | source
  | target
  deriving Repr, DecidableEq

/-- The word for a phrase. -/
def Phrase.word : Phrase → String
  | .source => "source"
  | .target => "target"

/-- A problem of a specification. -/
inductive Issue where
  | missingHead (rule : String)
  | multipleHeads (rule : String) (count : Nat)
  | emptySourcePhrase (rule : String)
  | missingWordId (rule : String) (phrase : Phrase)
  | missingCategory (rule word : String)
  | duplicateWordId (rule : String) (phrase : Phrase) (word : String)
  | unknownTargetWord (rule word : String)
  | missingFeatureValue (rule word label : String)
  | invalidRanking (rule label value : String)
  | invalidAffixType (rule word value : String)
  /-- Two features of one target word have the same ranking. -/
  | rankingTie (rule word : String) (ranking : Nat)
  /-- Several features could equally well provide the value of a match label. -/
  | ambiguousBinding (rule label : String)
  | tooManyPermutationWords (rule : String) (count limit : Nat)
  /-- The lexicon knows no values of a feature. -/
  | unresolvedFeature (category label : String)
  /-- The lexicon has no form for the fixed values of some features. -/
  | unresolvedFeatureValue (category label value : String)
  /-- A feature of the head word neither provides a value nor can be enforced. -/
  | ignoredHeadFeature (rule word label : String)
  | multipleDisjointSets (count : Nat)
  | invalidDisjointSet (reason : String)
  deriving Repr, DecidableEq

namespace Issue

/-- The start of a message about a rule. -/
def aboutRule (rule : String) : String := "Rule '" ++ rule ++ "': "

/-- The wording of an issue. -/
def message : Issue → String
  | missingHead rule => aboutRule rule ++ "no target word is marked as head"
  | multipleHeads rule count =>
    aboutRule rule ++ toString count ++ " target words are marked as head"
  | emptySourcePhrase rule => aboutRule rule ++ "the source phrase has no words"
  | missingWordId rule phrase => aboutRule rule ++ "a " ++ phrase.word ++ " word has no id"
  | missingCategory rule word =>
    aboutRule rule ++ "source word '" ++ word ++ "' has no category"
  | duplicateWordId rule phrase word =>
    aboutRule rule ++ "id '" ++ word ++ "' is used more than once in the " ++ phrase.word ++
      " phrase"
  | unknownTargetWord rule word =>
    aboutRule rule ++ "target word '" ++ word ++ "' has no matching source word"
  | missingFeatureValue rule word label =>
    aboutRule rule ++ "feature '" ++ label ++ "' on word '" ++ word ++
      "' has neither match nor value"
  | invalidRanking rule label value =>
    aboutRule rule ++ "feature '" ++ label ++ "' has invalid ranking '" ++ value ++ "'"
  | invalidAffixType rule word value =>
    aboutRule rule ++ "affix on word '" ++ word ++ "' has unknown type '" ++ value ++ "'"
  | rankingTie rule word ranking =>
    aboutRule rule ++ "word '" ++ word ++ "' has several features with ranking " ++
      toString ranking
  | ambiguousBinding rule label =>
    aboutRule rule ++ "match label '" ++ label ++
      "' has several equally ranked sources; add a ranking"
  | tooManyPermutationWords rule count limit =>
    aboutRule rule ++ toString count ++ " optional words exceed the permutation limit of " ++
      toString limit
  | unresolvedFeature category label =>
    "Feature '" ++ label ++ "' of category '" ++ category ++ "' has no values in the database"
  | unresolvedFeatureValue category label value =>
    "Value '" ++ value ++ "' of feature '" ++ label ++ "' (category '" ++ category ++
      "') has no form in the database"
  | ignoredHeadFeature rule word label =>
    aboutRule rule ++ "feature '" ++ label ++ "' on head word '" ++ word ++ "' is not used"
  | multipleDisjointSets count =>
    toString count ++
      " disjoint feature sets declared; only one is supported, disjoint features are disabled"
  | invalidDisjointSet reason => "Invalid disjoint feature set: " ++ reason

/-- Only a feature that is ignored is no error. -/
def severity : Issue → Severity
  | ignoredHeadFeature .. => .warning
  | _ => .error

/-- Whether the rule in which the issue is found is skipped. -/
def skipsRule : Issue → Bool
  | unresolvedFeature .. => false
  | unresolvedFeatureValue .. => false
  | ignoredHeadFeature .. => false
  | multipleDisjointSets _ => false
  | invalidDisjointSet _ => false
  | _ => true

end Issue

end TransferRules
