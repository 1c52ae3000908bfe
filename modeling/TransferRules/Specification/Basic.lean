import TransferRules.Rule.Basic
import TransferRules.Rule.Disjoint
import TransferRules.Rule.Issue

/-!
# Specifications

A specification document declares rules, and how they are to be added to a transfer file:
whether they replace rules of the same name, whether they are permuted, and which features are
disjoint.  Rules with issues are kept beside the others, so that all issues can be reported.
-/

namespace TransferRules

/-- A rule of a specification with what was found wrong in it. -/
structure SpecifiedRule where
  rule : Rule
  /-- Whether the rule is permuted, if it says so. -/
  permuted : Option Bool := none
  issues : List Issue := []
  deriving Repr, DecidableEq

/-- Whether nothing that was found wrong skips the rule. -/
def SpecifiedRule.isValid (s : SpecifiedRule) : Bool := !s.issues.any Issue.skipsRule

/-- A specification document. -/
structure Specification where
  /-- Whether rules of the transfer file with the name of a rule here are replaced. -/
  overwriteRules : Bool := false
  /-- Whether rules that do not say are permuted, if the document says so. -/
  permuted : Option Bool := none
  disjointSets : List DisjointSet := []
  rules : List SpecifiedRule := []
  /-- What was found wrong outside the rules. -/
  issues : List Issue := []
  deriving Repr, DecidableEq

/-- The disjoint feature set that is in effect: the only one there is. -/
def Specification.disjointSet? (s : Specification) : Option DisjointSet :=
  match s.disjointSets with
  | [set] => some set
  | _ => none

end TransferRules
