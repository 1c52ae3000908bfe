import TransferRules.Rule.Basic
import TransferRules.Rule.Issue

/-!
# Permutations

A rule that asks for permutations stands for one rule per choice of the words that may be left
out.  The choices run from the full phrase down to the head alone.  The full phrase keeps the
name of the rule; every other one is named after the categories it keeps.

## Main Definitions

* `Rule.expand` — the rules that a rule stands for
* `keptIds` — the ids that a choice keeps
-/

namespace TransferRules

/-- However high the limit is set, no more words than this may be left out. -/
def permutationBound : Nat := 16

/-- The ids of a list that a choice keeps: the `j`-th one if bit `j` of the choice is set. -/
def keptIds (choice : Nat) (ids : List String) : List String :=
  (ids.zipIdx.filter fun entry => choice.testBit entry.2).map Prod.fst

namespace Rule

/-- Whether a choice keeps a word; the head is always kept. -/
def keeps (r : Rule) (choice : Nat) (id : String) : Bool :=
  r.head?.map TargetWord.id == some id || (keptIds choice r.optionalIds).contains id

/-- The name of a rule that keeps only some words. -/
def subsetName (r : Rule) (keep : String → Bool) : String :=
  let categories := (r.source.filter fun w => keep w.id).filterMap SourceWord.category
  r.name ++ " " ++ String.intercalate " " categories

/-- The rule of a choice among all choices up to `full`, the one that keeps everything. -/
def permutation (r : Rule) (full choice : Nat) : Rule :=
  let keep := r.keeps choice
  r.retain (if choice = full then r.name else r.subsetName keep) keep

/-- How many choices there are among some words. -/
def choiceCount (words : Nat) : Nat := Nat.pow 2 words

/-- The permutations of a rule, from the choice that keeps everything down to the one that keeps
only the head. -/
def permutations (r : Rule) : List Rule :=
  let full := choiceCount r.optionalIds.length - 1
  (List.range (full + 1)).map fun i => r.permutation full (full - i)

/-- The rules that a rule stands for: itself, or its permutations if it asks for them.  At most
`limit` words may be left out. -/
def expand (r : Rule) (limit : Nat) : Except Issue (List Rule) :=
  if !r.permuted then .ok [r]
  else
    let count := r.optionalIds.length
    let limit := min limit permutationBound
    if limit < count then .error (.tooManyPermutationWords r.name count limit)
    else .ok r.permutations

end Rule

end TransferRules
