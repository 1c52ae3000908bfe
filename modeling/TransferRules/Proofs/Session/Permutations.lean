import TransferRules.Proofs.Compile.Permutation

/-!
# Processing a rule with permutations

A rule with permutations stands for `2 ^ k` rules, but not all of them need be compiled.  In the
full phrase one occurrence may provide the value of a match label where others tie; a permutation
that leaves out its word is left with the tie, and is skipped.  No permutation is lost in another
way, and those that keep at most two of the optional words tell whether one is.

## Main Statements

* `Session.process_permutations` — which permutations are compiled, and when all are
* `Session.process_permutations_twoAffixes_skips` — a phrase of three words that loses one

## Design Notes

Whether a permutation is compiled is not monotone in the words that it keeps: leaving out a word can
take away the occurrence that decides, and leaving out another one the occurrences that tie.  So a
bound on the number of words is needed to decide for all of them.
-/

namespace TransferRules

open TransferRules.Compile
open TransferRules.Markup
open TransferRules.Ordered
open TransferRules.Transfer

namespace Rule

/-- The rules that can be compiled, in their order. -/
theorem resolved?_map_fst (rules : List Rule) :
    (rules.filterMap resolved?).map Prod.fst = rules.filter isCompilable := by
  induction rules with
  | nil => rfl
  | cons rule rules ih =>
      rw [List.filterMap_cons, List.filter_cons, isCompilable, resolved?]
      cases rule.resolve with
      | ok resolution => exact congrArg (rule :: ·) ih
      | error issue => exact ih

end Rule

namespace Specification

variable {x : Specification} {settings : GeneratorSettings} {declared : SpecifiedRule}

/-- A document that holds just one rule with permutations stands for these. -/
theorem expansions_of_permuted (hrules : x.rules = [declared]) (hvalid : declared.isValid = true)
    (hpermuted : declared.permuted.getD (x.permuted.getD settings.createPermutations) = true)
    (hlimit : declared.rule.optionalIds.length ≤
      min settings.maxPermutationWords permutationBound) :
    x.expansions settings = declared.rule.permutations := by
  have hexpand : x.expand settings declared = .ok declared.rule.permutations := by
    unfold expand Rule.expand
    rw [hpermuted]
    exact if_neg (Nat.not_lt.2 hlimit)
  rw [expansions, hrules, List.flatMap_singleton, expansionsOf, if_pos hvalid, hexpand]

/-- A rule that the document stands for and that is not compiled is left out. -/
theorem mem_omissions_of_refused {subset : Rule} {issue : Issue}
    (hsubset : subset ∈ x.expansions settings) (hissue : subset.resolve = .error issue) :
    issue ∈ x.omissions settings := by
  obtain ⟨s, hs, hmem⟩ := List.mem_flatMap.1 hsubset
  have hrefusal : subset.refusal? = some issue := by rw [Rule.refusal?, hissue]
  refine List.mem_flatMap.2 ⟨s, hs, List.mem_append_right _ ?_⟩
  exact List.mem_filterMap.2 ⟨subset, hmem, hrefusal⟩

end Specification

namespace Session

/-- **A rule with permutations** stands for `2 ^ k` rules, and exactly those of them are compiled,
added at the end and counted that have a provider for each match label.  If the full phrase has,
then each one that is skipped is reported with a match label whose provider in the full phrase is on
a word that it leaves out.  None is skipped if and only if none is that keeps at most two of the
optional words. -/
theorem process_permutations (source target : Lexicon) (settings : GeneratorSettings)
    (events : List Event) (x : Specification) (document : String) (declared : SpecifiedRule) :
    let s := (start source target settings).run events
    let rule := declared.rule
    let words := rule.optionalIds.length
    x.rules = [declared] → declared.isValid = true →
    declared.permuted.getD (x.permuted.getD s.settings.createPermutations) = true →
    words ≤ min s.settings.maxPermutationWords permutationBound →
    rule.fullPhrase.isCompilable = true →
    let subsets := rule.permutations
    let compiled := subsets.filterMap Rule.resolved?
    let added := (s.cleared x).addRules (s.lexicons x.disjointSet?) compiled
    let after := s.process x document
    subsets.length = 2 ^ words ∧
      compiled.map Prod.fst = subsets.filter Rule.isCompilable ∧
      after.1 = compiled.length ∧
      after.2.workspace = added.2 ∧
      after.2.document.childrenOf .rules =
        (s.cleared x).document.childrenOf .rules ++ added.1.map Element.toNode ∧
      added.1.length = compiled.length ∧
      (∃ full : Resolution, rule.fullPhrase.resolve = .ok full ∧
        ∀ subset ∈ subsets, subset.isCompilable = false → ∃ p ∈ full.providers,
          subset.resolve = .error (.ambiguousBinding subset.name p.label) ∧
          (Issue.ambiguousBinding subset.name p.label).entry ∈ after.2.report.entries ∧
          ∀ w ∈ subset.source, w.id ≠ p.occurrence.wordId) ∧
      (after.1 = 2 ^ words ↔
        ∀ choice < 2 ^ words, (keptIds choice rule.optionalIds).length ≤ 2 →
          (rule.permutation (2 ^ words - 1) choice).isCompilable = true) := by
  intro s rule words hrules hvalid hpermuted hlimit hfull subsets compiled added after
  have hs : s.workspace.Coherent := coherent_run source target settings events
  have hexpansions : x.expansions s.settings = subsets :=
    Specification.expansions_of_permuted hrules hvalid hpermuted hlimit
  have hfst : compiled.map Prod.fst = subsets.filter Rule.isCompilable :=
    Rule.resolved?_map_fst subsets
  obtain ⟨full, hresolve⟩ := Rule.exists_resolve hfull
  have htie : rule.fullPhrase.rankingTie? = none := Rule.rankingTie?_of_resolve hresolve
  obtain ⟨entries, hprocess, homissions⟩ := s.process_eq x document
  rw [hexpansions] at hprocess
  have hafter : after = _ := hprocess
  refine ⟨rule.length_permutations, hfst, congrArg Prod.fst hafter,
    congrArg (fun result => result.2.workspace) hafter, ?_, Workspace.length_addRules compiled,
    ⟨full, hresolve, fun subset hsubset hskipped => ?_⟩, ?_⟩
  · rw [hafter]
    exact (coherent_cleared hs x).addRules compiled
  · obtain ⟨choice, -, rfl⟩ := Rule.mem_permutations.1 hsubset
    obtain ⟨label, herror, p, hp, rfl, hwords⟩ := Rule.resolve_permutation hresolve hskipped
    refine ⟨p, hp, herror, ?_, hwords⟩
    have hmem := Specification.mem_omissions_of_refused (hexpansions ▸ hsubset) herror
    rw [hafter]
    exact List.mem_append_right _ (homissions.subset (List.mem_map_of_mem hmem))
  · rw [← Rule.forall_isCompilable_iff htie, hafter, ← rule.length_permutations,
      ← List.length_map (f := Prod.fst), hfst, List.length_filter_eq_length_iff]

/-- A lexicon that knows the number of adjectives. -/
def numberedAdjectives : Lexicon where
  projectName := "source"
  categories := ((StringMap.empty.insert "adj" none).insert "det" none).insert "n" none
  features := StringMap.empty.insert "adj"
    (StringMap.empty.insert "number" { values := ["pl", "sg"] })

/-- A lexicon that knows affixes for the number of determiners. -/
def numberedDeterminers : Lexicon where
  projectName := "target"
  categories := ((StringMap.empty.insert "adj" none).insert "det" none).insert "n" none
  features := StringMap.empty.insert "det"
    (StringMap.empty.insert "number" { affixes := [⟨"PL", "pl"⟩, ⟨"SG", "sg"⟩] })

/-- A phrase in which some affixes of a determiner agree with an adjective. -/
def agreeingPhrase (affixes : List AffixSide) : Specification where
  permuted := some true
  rules := [{
    rule := {
      name := "phrase"
      source := [⟨"1", some "adj", [{ label := "number", binding := .agreement "a" }]⟩,
        ⟨"2", some "det", []⟩, ⟨"3", some "n", []⟩]
      target := [{ id := "1" },
        { id := "2"
          affixes := affixes.map fun side =>
            ⟨side, [{ label := "number", binding := .agreement "a" }]⟩ },
        { id := "3", isHead := true }] } }]

/-- With one affix all permutations are compiled: without the adjective the affix is left to
itself. -/
theorem process_permutations_oneAffix :
    ∃ declared : SpecifiedRule,
      (agreeingPhrase [.after]).rules = [declared] ∧ declared.isValid = true ∧
      declared.rule.optionalIds = ["1", "2"] ∧
      declared.rule.fullPhrase.isCompilable = true ∧
      ((start numberedAdjectives numberedDeterminers {}).process
        (agreeingPhrase [.after]) "spec").1 = 2 ^ 2 := by
  refine ⟨_, rfl, rfl, by decide +kernel, by decide +kernel, ?_⟩
  obtain ⟨-, -, -, -, -, -, -, hall⟩ := process_permutations numberedAdjectives numberedDeterminers
    {} [] (agreeingPhrase [.after]) "spec" _ rfl rfl rfl (by decide +kernel) (by decide +kernel)
  exact hall.2 (by decide +kernel)

/-- With two, one is lost: without the adjective neither affix provides the number of the other,
though the adjective decides in the full phrase. -/
theorem process_permutations_twoAffixes_skips :
    ¬ ∀ (source target : Lexicon) (settings : GeneratorSettings) (events : List Event)
        (x : Specification) (document : String) (declared : SpecifiedRule),
        let s := (start source target settings).run events
        let words := declared.rule.optionalIds.length
        x.rules = [declared] → declared.isValid = true →
        declared.permuted.getD (x.permuted.getD s.settings.createPermutations) = true →
        words ≤ min s.settings.maxPermutationWords permutationBound →
        declared.rule.fullPhrase.isCompilable = true →
        (s.process x document).1 = 2 ^ words := by
  intro hall
  have hcount := hall numberedAdjectives numberedDeterminers {} []
    (agreeingPhrase [.before, .after]) "spec" _ rfl rfl rfl (by decide +kernel) (by decide +kernel)
  revert hcount
  decide +kernel

end Session

end TransferRules
