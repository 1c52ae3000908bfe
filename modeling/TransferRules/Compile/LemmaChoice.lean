import TransferRules.Compile.Affix

/-!
# The choice of a lemma

A word that is not the head puts out the lemma that carries the values of its features.  If no
lemma carries all of them, features are dropped from the highest ranking down until one does.

## Main Definitions

* `byRanking` — occurrences from the lowest ranking up, those without one last
* `bestLemma?` — the lemma for given values of all features
* `lemmaSelections` — the best lemma for every combination of stored values
* `emitLemma` — the lemma of a word
-/

namespace TransferRules.Compile

open TransferRules.Action
open TransferRules.Ordered
open TransferRules.Text

/-- Whether the first ranking goes before the second, or is the same. -/
def rankingLe : Option Nat → Option Nat → Bool
  | some m, some n => decide (m ≤ n)
  | some _, none => true
  | none, some _ => false
  | none, none => true

/-- Occurrences from the lowest ranking up, those without one last; equals keep their order. -/
def byRanking (occurrences : List Occurrence) : List Occurrence :=
  occurrences.mergeSort fun a b => rankingLe a.feature.ranking b.feature.ranking

/-- All lemmas of some features in ascending order. -/
def lemmasOf (usable : List Usable) : List String :=
  sortStrings (usable.flatMap fun u => u.exponents.map Exponent.form)

/-- Whether a lemma carries the values of the features. -/
def agrees (form : String) (usable : List Usable) (values : List String) : Bool :=
  (usable.zip values).all fun (u, value) => u.valueOf? form == some value

/-- The first lemma that carries the values of the first `count` features, or of fewer, as many
as any lemma carries; it has to carry at least one. -/
def bestAmong? (lemmas : List String) (usable : List Usable) (values : List String) :
    Nat → Option String
  | 0 => none
  | count + 1 =>
    (lemmas.find? fun form => agrees form (usable.take (count + 1)) (values.take (count + 1))) <|>
      bestAmong? lemmas usable values count

/-- The best lemma for given values of the features. -/
def bestLemma? (usable : List Usable) (values : List String) : Option String :=
  bestAmong? (lemmasOf usable) usable values values.length

/-- All ways to give every feature a value: a given one, or any that a form carries.  The last
feature varies fastest. -/
def combinations : List Usable → List (List String)
  | [] => [[]]
  | u :: rest =>
    let values :=
      match u.operand with
      | .given value => [value]
      | .stored _ => u.values
    values.flatMap fun value => (combinations rest).map (value :: ·)

/-- The best lemma for every combination of values that has one. -/
def lemmaSelections (usable : List Usable) : List (List String × String) :=
  (combinations usable).filterMap fun values =>
    (bestLemma? usable values).map fun form => (values, form)

/-- The choice of a lemma by the stored values; the word's own lemma if none fits. -/
def lemmaSelection (target : String) (position : Nat) (usable : List Usable)
    (selections : List (List String × String)) : Choice Assignment where
  branches := selections.map fun (values, form) =>
    (.all (storedEquations usable values), ⟨target, .lit form⟩)
  otherwise := some ⟨target, .clip position .target "lem"⟩

/-- The lemma of a word: one that is chosen for good, or a variable that a choice among lemmas
sets.  Without usable features, or without a lemma that fits, there is none; if no lemma fits
fixed values that is reported. -/
def emitLemma (ctx : Lexicons) (bindings : Bindings) (position : Nat) (category : String)
    (occurrences : List Occurrence) : Emit (Option Value) := do
  let usable ←
    usableFeatures bindings category (ctx.target.lemmas category) (byRanking occurrences)
  if usable.isEmpty then return none
  if usable.all fun u => u.operand.name?.isNone then
    let values := usable.filterMap fun u => u.operand.value?
    match bestLemma? usable values with
    | some form => return some (.lit form)
    | none =>
      report (.unresolvedFeatureValue category "lemma" (String.intercalate "+" values))
      return none
  else
    match lemmaSelections usable with
    | [] => return none
    | selections =>
      let name ← claim ("v_" ++ identifier (category ++ "_lemma")) position
      defineVariable name
      emit (.choose (lemmaSelection name position usable selections))
      return some (.var name)

end TransferRules.Compile
