import TransferRules.Ordered.Reach
import TransferRules.Transfer.Document

/-!
# What a transfer file uses

A variable or macro is used if a rule or a loaded macro refers to it, or a macro that is
itself used.  Trimming removes the generated macros and variables that are not used; loaded
ones stay, whether used or not.

## Main Definitions

* `usedMacros`, `usedVariables` — the names that are used
* `TransferDocument.trim` — remove what is generated and not used
-/

namespace TransferRules.Transfer

open TransferRules.Markup
open TransferRules.Ordered

/-- The names given by the elements inside `e` that have one of the given tags. -/
def referencesIn (tags : List String) (e : Element) : List String :=
  (e.walk.filter fun inner => tags.contains inner.name).filterMap fun inner => inner.attribute? "n"

/-- The macros that are called inside an element. -/
def calledMacros (e : Element) : List String := referencesIn ["call-macro"] e

/-- The variables that are read or written inside an element. -/
def mentionedVariables (e : Element) : List String := referencesIn ["var", "append"] e

namespace TransferDocument

/-- The definitions that use something by themselves: rules and loaded macros. -/
def usageRoots (d : TransferDocument) : List Element :=
  d.definitions .rules ++
    (d.definitions .macros).filter fun e =>
      ((e.attribute? "n").map (d.isLoaded .macros)).getD false

/-- The macros that the first macro of a name calls. -/
def callsOf (d : TransferDocument) (name : String) : List String :=
  ((d.definition? .macros name).map calledMacros).getD []

/-- The macros that are called by a root or by a macro that is used. -/
def usedMacros (d : TransferDocument) : List String :=
  let rootCalls := d.usageRoots.flatMap calledMacros
  let pool := rootCalls ++ (d.definitions .macros).flatMap calledMacros
  reachable pool d.callsOf rootCalls

/-- The variables that are mentioned by a root or by a macro that is used. -/
def usedVariables (d : TransferDocument) : List String :=
  (d.usageRoots ++ d.usedMacros.filterMap (d.definition? .macros)).flatMap mentionedVariables

/-- Remove all definitions with the given names. -/
def removeAll (d : TransferDocument) (kind : SectionKind) (names : List String) :
    TransferDocument :=
  names.foldl (fun d name => d.removeDefinition kind name) d

end TransferDocument

/-- What a trim removed, one entry for every definition. -/
structure TrimSummary where
  macros : List String
  vars : List String
  deriving Repr, DecidableEq

/-- How many definitions were removed. -/
def TrimSummary.total (s : TrimSummary) : Nat := s.vars.length + s.macros.length

namespace TransferDocument

/-- The generated macros and variables that are not used. -/
def unused (d : TransferDocument) : TrimSummary :=
  let usedMacros := d.usedMacros
  let usedVariables := d.usedVariables
  { macros := (d.generatedNames .macros).filter fun name => !usedMacros.contains name
    vars := (d.generatedNames .vars).filter fun name => !usedVariables.contains name }

/-- Remove the generated macros and variables that are not used. -/
def trim (d : TransferDocument) : TrimSummary × TransferDocument :=
  let summary := d.unused
  (summary, (d.removeAll .macros summary.macros).removeAll .vars summary.vars)

end TransferDocument

end TransferRules.Transfer
