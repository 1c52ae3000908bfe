import TransferRules.Rule.Permutation
import TransferRules.Settings.Basic
import TransferRules.Specification.Basic

/-!
# What a specification asks for

A specification stands for a list of rules: its valid rules, permuted where this is asked for.
Whether a rule is permuted is said by the rule, or else by the document, or else by the
settings.

## Main Definitions

* `Specification.expansions` — the rules to be compiled
* `Specification.findings` — the issues of everything else
-/

namespace TransferRules

namespace Specification

/-- The rules that a valid rule of the document stands for. -/
def expand (x : Specification) (settings : GeneratorSettings) (s : SpecifiedRule) :
    Except Issue (List Rule) :=
  let permuted := s.permuted.getD (x.permuted.getD settings.createPermutations)
  Rule.expand { s.rule with permuted } settings.maxPermutationWords

/-- The rules that one rule of the document stands for; none if it is skipped. -/
def expansionsOf (x : Specification) (settings : GeneratorSettings) (s : SpecifiedRule) :
    List Rule :=
  if s.isValid then
    match x.expand settings s with
    | .ok rules => rules
    | .error _ => []
  else []

/-- The issues of one rule of the document. -/
def findingsOf (x : Specification) (settings : GeneratorSettings) (s : SpecifiedRule) :
    List Issue :=
  s.issues ++
    if s.isValid then
      match x.expand settings s with
      | .ok _ => []
      | .error issue => [issue]
    else []

/-- The rules to be compiled, in document order. -/
def expansions (x : Specification) (settings : GeneratorSettings) : List Rule :=
  x.rules.flatMap (x.expansionsOf settings)

/-- The issues of the document and its rules, in document order. -/
def findings (x : Specification) (settings : GeneratorSettings) : List Issue :=
  x.issues ++ x.rules.flatMap (x.findingsOf settings)

end Specification

end TransferRules
