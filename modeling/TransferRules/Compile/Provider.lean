import TransferRules.Compile.Occurrence
import TransferRules.Rule.Issue

/-!
# Providers

For every match label of a rule one occurrence provides the value that all others use.
Occurrences on source words come first, then the head word, then its affixes, then all others.
Among several the lowest ranking wins; a tie goes to the head word if only one of the tied
occurrences is on it, and is an issue of the rule otherwise.

## Main Definitions

* `Provider` — the occurrence that was chosen for a match label
* `Rule.resolve` — the occurrences and providers of a rule, or the issue that skips it

## Design Notes

Occurrences carry their place in the list of occurrences, since two features of a word may be
the same in everything else.
-/

namespace TransferRules.Compile

/-- The ranking that stands for no ranking: no explicit one is higher. -/
def lastRank : Nat := 4294967295

/-- The ranking by which an occurrence competes. -/
def Occurrence.rank (o : Occurrence) : Nat := o.feature.ranking.getD lastRank

/-- The occurrence that provides the value of a match label, with its place. -/
structure Provider where
  label : String
  occurrence : Occurrence
  index : Nat
  deriving Repr, DecidableEq

/-- The occurrences with the lowest rank. -/
def lowest (candidates : List (Occurrence × Nat)) : List (Occurrence × Nat) :=
  candidates.filter fun c => candidates.all fun d => decide (c.1.rank ≤ d.1.rank)

/-- The best of some candidates, if there is one. -/
def pickRanked? (candidates : List (Occurrence × Nat)) : Option (Occurrence × Nat) :=
  match lowest candidates with
  | [single] => some single
  | winners =>
    match winners.filter fun c => c.1.onHead with
    | [single] => some single
    | _ => none

/-- The provider among the occurrences with one match label, if there is one. -/
def provider? (members : List (Occurrence × Nat)) : Option (Occurrence × Nat) :=
  match members.filter fun c => c.1.site == .source with
  | [] =>
    (members.find? fun c => c.1.onHead && c.1.site == .word) <|>
    (members.find? fun c => c.1.onHead && c.1.site.isAffix) <|>
    pickRanked? members
  | source => pickRanked? source

/-- The match labels of some occurrences, in the order of their first occurrence. -/
def labelsOf (occurrences : List Occurrence) : List String :=
  (occurrences.filterMap Occurrence.label?).eraseDups

/-- The providers of all match labels, or the issue of the first that has none. -/
def providersOf (rule : String) (occurrences : List Occurrence) : Except Issue (List Provider) :=
  (labelsOf occurrences).mapM fun label =>
    match provider? (occurrences.zipIdx.filter fun c => c.1.label? == some label) with
    | some (occurrence, index) => .ok ⟨label, occurrence, index⟩
    | none => .error (.ambiguousBinding rule label)

/-- The first ranking that a list repeats. -/
def firstRepeated? (seen : List Nat) : List Nat → Option Nat
  | [] => none
  | n :: ns => if n ∈ seen then some n else firstRepeated? (n :: seen) ns

/-- The occurrences of a rule and the providers among them. -/
structure Resolution where
  occurrences : List Occurrence
  providers : List Provider
  deriving Repr, DecidableEq

/-- Whether the occurrence at a place is a provider. -/
def Resolution.provides (r : Resolution) (index : Nat) : Bool :=
  r.providers.any fun p => p.index == index

end TransferRules.Compile

namespace TransferRules.Rule

open TransferRules.Compile

/-- The first target word of whose own features two have the same ranking. -/
def rankingTie? (r : Rule) : Option Issue :=
  r.target.findSome? fun w =>
    (firstRepeated? [] (w.features.filterMap Feature.ranking)).map fun ranking =>
      .rankingTie r.name w.id ranking

/-- The occurrences and providers of a rule, or the issue for which it is skipped. -/
def resolve (r : Rule) : Except Issue Resolution :=
  match r.rankingTie? with
  | some issue => .error issue
  | none =>
    (providersOf r.name r.occurrences).map fun providers => ⟨r.occurrences, providers⟩

end TransferRules.Rule
