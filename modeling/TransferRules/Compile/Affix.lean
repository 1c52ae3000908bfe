import TransferRules.Compile.Binding

/-!
# Consumers: affixes and lemmas

An affix puts out the gloss that carries the values of all its features; a word that is not the
head puts out the lemma that carries the values of its own.  Both know, for every usable
feature, what to compare with and which forms carry which value, a form that is listed twice
keeping its first value.

This module holds what is common to both, and the affixes.

## Main Definitions

* `Usable` — a feature that can be compared, with its forms
* `usableFeatures` — the usable features among some occurrences
* `affixCandidates` — the glosses that carry a value of every feature
* `emitAffix` — the output of an affix
-/

namespace TransferRules.Compile

open TransferRules.Action
open TransferRules.Ordered
open TransferRules.Text

/-- A feature that can be compared: its label, what it is compared with, and the forms that
carry its values, each once. -/
structure Usable where
  label : String
  operand : Operand
  exponents : List Exponent
  deriving Repr, DecidableEq

namespace Usable

/-- The value that a form carries. -/
def valueOf? (u : Usable) (form : String) : Option String :=
  (u.exponents.find? fun e => e.form == form).map Exponent.value

/-- The values that the forms carry, in ascending order. -/
def values (u : Usable) : List String := sortStrings (u.exponents.map Exponent.value)

/-- Whether a value can be that of the feature: a given one has to be equal to it. -/
def admits (u : Usable) (value : String) : Bool :=
  match u.operand with
  | .given given => given == value
  | .stored _ => true

end Usable

/-- The usable features among some occurrences: those with forms in the lexicon, and something
to compare with.  That a feature has no forms is reported. -/
def usableFeatures (bindings : Bindings) (category : String) (forms : String → List Exponent) :
    List Occurrence → Emit (List Usable)
  | [] => return []
  | o :: rest => do
    match forms o.feature.label with
    | [] =>
      report (.unresolvedFeature category o.feature.label)
      usableFeatures bindings category forms rest
    | exponents =>
      match ← operand? bindings o with
      | none => usableFeatures bindings category forms rest
      | some operand =>
        let more ← usableFeatures bindings category forms rest
        return ⟨o.feature.label, operand, firstExponents [] exponents⟩ :: more

/-- The equations that say that stored values are the given ones, feature by feature. -/
def storedEquations (usable : List Usable) (values : List String) : List Equation :=
  (usable.zip values).filterMap fun (u, value) =>
    u.operand.name?.map fun name => ⟨.var name, .tag value⟩

/-- The values that a form carries for all features, if it carries one for each and all of them
can be those of the features. -/
def carriedValues? (usable : List Usable) (form : String) : Option (List String) :=
  usable.mapM fun u => (u.valueOf? form).filter u.admits

/-- The glosses that carry a value of every feature, in ascending order, with these values. -/
def affixCandidates (usable : List Usable) : List (String × List String) :=
  match usable with
  | [] => []
  | first :: _ =>
    (sortStrings (first.exponents.map Exponent.form)).filterMap fun form =>
      (carriedValues? usable form).map fun values => (form, values)

/-- The issue of an affix for whose fixed values there is no gloss. -/
def missingForm (category : String) (labels : List String) (usable : List Usable) : Issue :=
  .unresolvedFeatureValue category (String.intercalate "+" labels)
    (String.intercalate "+" (usable.filterMap fun u => u.operand.value?))

/-- The choice of a gloss by the stored values; no gloss if none fits. -/
def affixChoice (target : String) (usable : List Usable)
    (candidates : List (String × List String)) : Choice Assignment where
  branches := candidates.map fun (form, values) =>
    (.all (storedEquations usable values), ⟨target, .tag form⟩)
  otherwise := some (.clear target)

/-- The output of an affix: a gloss, or a variable that a choice among glosses sets.  An affix
without usable features has none, and neither has one without a gloss, which is reported. -/
def emitAffix (ctx : Lexicons) (bindings : Bindings) (position : Nat) (category : String)
    (occurrences : List Occurrence) : Emit (Option Value) := do
  let usable ← usableFeatures bindings category (ctx.target.affixes category) occurrences
  if usable.isEmpty then return none
  let candidates := affixCandidates usable
  let labels := usable.map Usable.label
  match candidates with
  | [] =>
    report (missingForm category labels usable)
    return none
  | (form, _) :: _ =>
    if usable.all fun u => u.operand.name?.isNone then return some (.tag form)
    else
      let stem := identifier (category ++ "_" ++ String.intercalate "_" labels ++ "_affix")
      let name ← claim ("v_" ++ stem) position
      defineVariable name
      emit (.choose (affixChoice name usable candidates))
      return some (.var name)

end TransferRules.Compile
