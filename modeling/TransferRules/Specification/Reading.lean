import TransferRules.Specification.Basic
import TransferRules.Text.Lowercase
import TransferRules.Text.Numeral
import TransferRules.Transfer.Layout

/-!
# Reading specifications

A specification is a markup document.  Only faulty markup or a wrong root ends the reading;
whatever is wrong inside becomes an issue, and the faulty word, affix or feature is left out.

## Main Definitions

* `readFeature`, `readAffixes`, `readSourceWords`, `readTargetWords` — the parts of a rule
* `readRule` — a rule with its issues
* `Specification.parse` — the specification of a text

## Design Notes

Each reader returns what it read together with the issues it found, in document order.  An
attribute counts as given only if something is left of its value when it is trimmed.
-/

namespace TransferRules

open TransferRules.Markup
open TransferRules.Text

/-- The root of a specification. -/
def specificationTag : String := "FLExTransRuleGenerator"

/-- The trimmed value of an attribute, if anything is left of it. -/
def givenAttribute? (e : Element) (key : String) : Option String :=
  ((e.attribute? key).map trim).filter fun value => !value.isEmpty

/-- The ASCII letters of a text in lower case. -/
def lowerAscii (s : String) : String := String.ofList (s.toList.map Char.toLower)

/-- A flag attribute: set if its trimmed value is `yes` in whatever case. -/
def flag? (e : Element) (key : String) : Option Bool :=
  (e.attribute? key).map fun value => lowerAscii (trim value) == "yes"

/-- The side of an affix of the type that a text names, in whatever case; otherwise the text as
it was compared. -/
def AffixSide.parse (text : String) : Except String AffixSide :=
  let lowered := lowercase (trim text)
  if lowered = AffixSide.before.word then .ok .before
  else if lowered = AffixSide.after.word then .ok .after
  else .error lowered

/-- What could be read and the issues of what could not, each in order. -/
def separate {α : Type} : List (Except Issue α) → List α × List Issue
  | [] => ([], [])
  | .ok a :: rest => let (as, issues) := separate rest; (a :: as, issues)
  | .error issue :: rest => let (as, issues) := separate rest; (as, issue :: issues)

/-- A feature of a word.  A fixed value goes before a match label. -/
def readFeature (rule word : String) (e : Element) : Except Issue Feature := do
  let label := (givenAttribute? e "label").getD ""
  let binding ←
    match givenAttribute? e "value", givenAttribute? e "match" with
    | some value, _ => .ok (Binding.fixed value)
    | none, some label => .ok (Binding.agreement label)
    | none, none => .error (.missingFeatureValue rule word label)
  if label.isEmpty then .error (.missingFeatureValue rule word "")
  let ranking ←
    match givenAttribute? e "ranking" with
    | none => .ok none
    | some raw =>
      match readUnsigned raw.toList with
      | .ok ranking => .ok (some ranking)
      | .error _ => .error (.invalidRanking rule label raw)
  return { label, binding, ranking, fallback := givenAttribute? e "unmarked_default" }

/-- The features of a word or affix: inside its first list of features, or in itself. -/
def readFeatures (rule word : String) (owner : Element) : List Feature × List Issue :=
  let container := (owner.child? "Features").getD owner
  separate ((container.childrenNamed "Feature").map (readFeature rule word))

/-- The side of an affix, after the stem if it does not say. -/
def readAffixSide (rule word : String) (e : Element) : Except Issue AffixSide :=
  match givenAttribute? e "type" with
  | none => .ok .after
  | some raw =>
    match AffixSide.parse raw with
    | .ok side => .ok side
    | .error _ => .error (.invalidAffixType rule word raw)

/-- Affixes of a word. -/
def readAffixes (rule word : String) : List Element → List Affix × List Issue
  | [] => ([], [])
  | e :: rest =>
    let (affixes, issues) := readAffixes rule word rest
    match readAffixSide rule word e with
    | .error issue => (affixes, issue :: issues)
    | .ok side =>
      let (features, featureIssues) := readFeatures rule word e
      (⟨side, features⟩ :: affixes, featureIssues ++ issues)

/-- The words of a phrase of a rule. -/
def phraseWords (rule : Element) (phrase : String) : List Element :=
  match ((rule.child? phrase).bind (·.child? "Phrase")).bind (·.child? "Words") with
  | some words => words.childrenNamed "Word"
  | none => []

/-- Words of the source phrase, after words with the ids `seen`. -/
def readSourceWords (rule : String) (seen : List String) :
    List Element → List SourceWord × List Issue
  | [] => ([], [])
  | e :: rest =>
    match givenAttribute? e "id" with
    | none =>
      let (words, issues) := readSourceWords rule seen rest
      (words, .missingWordId rule .source :: issues)
    | some id =>
      if id ∈ seen then
        let (words, issues) := readSourceWords rule seen rest
        (words, .duplicateWordId rule .source id :: issues)
      else
        let (words, issues) := readSourceWords rule (id :: seen) rest
        let category := givenAttribute? e "category"
        let (features, featureIssues) := readFeatures rule id e
        let categoryIssues := if category.isNone then [.missingCategory rule id] else []
        (⟨id, category, features⟩ :: words, categoryIssues ++ featureIssues ++ issues)

/-- A target word with the given id. -/
def readTargetWord (rule id : String) (e : Element) : TargetWord × List Issue :=
  let (features, featureIssues) := readFeatures rule id e
  let affixElements :=
    match e.child? "Affixes" with
    | some list => list.childrenNamed "Affix"
    | none => []
  let (affixes, affixIssues) := readAffixes rule id affixElements
  ({ id
     isHead := (flag? e "head").getD false
     category := givenAttribute? e "category"
     features
     affixes },
    featureIssues ++ affixIssues)

/-- Words of the target phrase, after words with the ids `seen`; `sourceIds` are the ids of the
source phrase. -/
def readTargetWords (rule : String) (sourceIds seen : List String) :
    List Element → List TargetWord × List Issue
  | [] => ([], [])
  | e :: rest =>
    match givenAttribute? e "id" with
    | none =>
      let (words, issues) := readTargetWords rule sourceIds seen rest
      (words, .missingWordId rule .target :: issues)
    | some id =>
      if id ∈ seen then
        let (words, issues) := readTargetWords rule sourceIds seen rest
        (words, .duplicateWordId rule .target id :: issues)
      else
        let (words, issues) := readTargetWords rule sourceIds (id :: seen) rest
        let (word, wordIssues) := readTargetWord rule id e
        let unknownIssues := if id ∈ sourceIds then [] else [.unknownTargetWord rule id]
        (word :: words, unknownIssues ++ wordIssues ++ issues)

/-- What is wrong with the number of heads. -/
def headIssues (rule : String) (target : List TargetWord) : List Issue :=
  match target.countP TargetWord.isHead with
  | 0 => [.missingHead rule]
  | 1 => []
  | count => [.multipleHeads rule count]

/-- A rule with its issues; `number` counts the rules of the document from one and names a rule
without a name. -/
def readRule (e : Element) (number : Nat) : SpecifiedRule :=
  let name := (givenAttribute? e "name").getD ("Rule " ++ toString number)
  let sourceElements := phraseWords e "Source"
  let (source, sourceIssues) := readSourceWords name [] sourceElements
  let emptyIssues :=
    if source.isEmpty && sourceIssues.isEmpty then [.emptySourcePhrase name] else []
  let sourceIds := sourceElements.filterMap fun word => givenAttribute? word "id"
  let (target, targetIssues) := readTargetWords name sourceIds [] (phraseWords e "Target")
  { rule := { name, source, target }
    permuted := flag? e "create_permutations"
    issues := sourceIssues ++ emptyIssues ++ targetIssues ++ headIssues name target }

/-- A pairing of the disjoint set `name`. -/
def readPairing (name : String) (e : Element) : Except Issue DisjointPairing :=
  match givenAttribute? e "co_feature_value", givenAttribute? e "flex_feature_name" with
  | some coValue, some part => .ok ⟨coValue, part⟩
  | _, _ => .error (.invalidDisjointSet ("incomplete pairing in '" ++ name ++ "'"))

/-- A disjoint feature set; the first thing wrong with it decides. -/
def readDisjointSet (e : Element) : Except Issue DisjointSet := do
  let coFeature ←
    match givenAttribute? e "co_feature_name" with
    | some coFeature => .ok coFeature
    | none => .error (.invalidDisjointSet "missing co_feature_name")
  let name ←
    match givenAttribute? e "disjoint_name" with
    | some name => .ok name
    | none => .error (.invalidDisjointSet "missing disjoint_name")
  let elements :=
    match e.child? "DisjointFeatureValuePairings" with
    | some list => list.childrenNamed "DisjointFeatureValuePairing"
    | none => []
  let pairings ← elements.mapM (readPairing name)
  if pairings.isEmpty then .error (.invalidDisjointSet ("'" ++ name ++ "' has no value pairings"))
  return { coFeature, name, pairings }

/-- The rules of a list of elements, the first of which has the given number. -/
def readRules (number : Nat) : List Element → List SpecifiedRule
  | [] => []
  | e :: rest => readRule e number :: readRules (number + 1) rest

namespace Specification

/-- The specification under a root element. -/
def ofElement (root : Element) : Specification :=
  let setElements :=
    match root.child? "DisjointFeatureSets" with
    | some list => list.childrenNamed "DisjointFeatureSet"
    | none => []
  let (disjointSets, setIssues) := separate (setElements.map readDisjointSet)
  let countIssues :=
    if 1 < disjointSets.length then [.multipleDisjointSets disjointSets.length] else []
  let ruleElements :=
    match root.child? "FLExTransRules" with
    | some list => list.childrenNamed "FLExTransRule"
    | none => []
  { overwriteRules := (flag? root "overwrite_rules").getD false
    permuted := flag? root "create_permutations"
    disjointSets
    rules := readRules 1 ruleElements
    issues := setIssues ++ countIssues }

/-- The specification of a text. -/
def parse (text : String) : Except Transfer.LoadError Specification :=
  (Transfer.parseRooted specificationTag text).map fun document => ofElement document.root

end Specification

end TransferRules
