import TransferRules.Proofs.Compile.HeadFeatures
import TransferRules.Proofs.Compile.Messages
import TransferRules.Proofs.Session.Runs

/-!
# Warnings about features of the head word

When a rule is compiled, a warning is given for every feature of the head word that provides no
value, in the order of the features, and there are no other warnings.  A feature deserves one if it
is unused: if it provides no value, or if nothing uses the value that it provides.  The second case
goes without a warning.  So the warnings are the right ones exactly if the value of every match
label that is provided on the head word is used.

## Main Statements

* `Session.warnings_compileRule` — which features a compiled rule is warned about
* `Session.not_warned_genderedNoun` — a feature that nothing uses, without a warning
-/

namespace TransferRules

open TransferRules.Compile
open TransferRules.Ordered

/-- The messages of a severity are those before, and those of the issues with this severity. -/
theorem Report.messages_noteAll (r : Report) (issues : List Issue) (severity : Severity) :
    (r.noteAll issues).messages severity =
      r.messages severity ++
        (issues.filter fun issue => issue.severity == severity).map Issue.message := by
  rw [Session.report_noteAll, messages, List.filter_append, List.map_append, List.filter_map,
    List.map_map]
  rfl

/-- A compilation warns about ignored features, and about nothing else. -/
theorem Compile.warnings_compile (ctx : Lexicons) (rule : Rule) (r : Resolution) (e : Emission) :
    (compile ctx rule r e).2.report.messages .warning =
      e.report.messages .warning ++ (ignoredFeatures rule.name r).map Issue.message := by
  obtain ⟨lacks, hlacks, hreport⟩ := @compile_reports ctx rule r e
  have hignored : ∀ issue ∈ ignoredFeatures rule.name r,
      (issue.severity == .warning) = true := by
    intro issue hissue
    obtain ⟨o, -, rfl⟩ := List.mem_map.1 hissue
    rfl
  have herrors : ∀ issue ∈ lacks, ¬ (issue.severity == .warning) = true := by
    intro issue hissue
    rw [(hlacks issue hissue).severity]
    exact Bool.false_ne_true
  rw [hreport, Report.messages_noteAll, List.filter_append, List.filter_eq_self.2 hignored,
    List.filter_eq_nil_iff.2 herrors, List.append_nil]

namespace Session

/-- The warning about a feature of the head word of a rule. -/
def unusedWarning (rule : Rule) (head : TargetWord) (f : Feature) : String :=
  (Issue.ignoredHeadFeature rule.name head.id f.label).message

section CompileRule

variable {rule : Rule} {r : Resolution} {head : TargetWord}

/-- There is a warning about every idle feature of the head word. -/
theorem warnings_eq (hrule : rule.WellFormed) (hr : rule.resolve = .ok r)
    (hhead : rule.head? = some head) (s : Session) (disjoint : Option DisjointSet) :
    (s.compileRule disjoint rule).2.report.messages .warning =
      s.report.messages .warning ++ (rule.idleFeatures head).map (unusedWarning rule head) := by
  have hmessages := warnings_compile (s.lexicons disjoint) rule r
    { workspace := s.workspace, report := s.report }
  rw [Rule.ignoredFeatures_eq hrule hr hhead, List.map_map] at hmessages
  rw [compileRule, hr]
  exact hmessages

/-- As many features are idle as are unused if the warnings are the same. -/
theorem map_unusedWarning_iff (rule : Rule) (head : TargetWord) :
    (rule.idleFeatures head).map (unusedWarning rule head) =
        (rule.unusedFeatures head).map (unusedWarning rule head) ↔
      rule.idleFeatures head = rule.unusedFeatures head := by
  refine ⟨fun heq => ?_, congrArg _⟩
  have hlength := congrArg List.length heq
  rw [List.length_map, List.length_map] at hlength
  exact (rule.idleFeatures_sublist head).eq_of_length hlength

/-- **Which features of the head word are warned about.**  When a well-formed rule is compiled, a
warning is given for every feature of the head word that is not the provider of its match label, in
the order of the features, and there is no other warning.  So all features that are warned about are
unused.  All that are unused are warned about exactly if every match label that has its provider on
the head word is consumed, by an affix or by a word that is not the head. -/
theorem warnings_compileRule (hrule : rule.WellFormed) (hr : rule.resolve = .ok r) (s : Session)
    (disjoint : Option DisjointSet) :
    ∃ head, rule.head? = some head ∧
      let warnings := (s.compileRule disjoint rule).2.report.messages .warning
      warnings = s.report.messages .warning ++
        (rule.idleFeatures head).map (unusedWarning rule head) ∧
      (∀ place f, head.features[place]? = some f → ∀ label,
        rule.providedLabel? head (f, place) = some label ↔
          ∃ p ∈ r.providers, p.label = label ∧ rule.StandsAt p ⟨head.id, .word, place⟩) ∧
      (∀ label, rule.Consumes label ↔ isConsumed r.occurrences label = true) ∧
      (rule.idleFeatures head).Sublist (rule.unusedFeatures head) ∧
      (warnings = s.report.messages .warning ++
          (rule.unusedFeatures head).map (unusedWarning rule head) ↔
        ∀ p ∈ r.providers, ∀ place, rule.StandsAt p ⟨head.id, .word, place⟩ →
          rule.Consumes p.label) := by
  obtain ⟨head, -, hhead, -⟩ := hrule.exists_head
  refine ⟨head, hhead, ?_⟩
  intro warnings
  have hwarnings : warnings = s.report.messages .warning ++
      (rule.idleFeatures head).map (unusedWarning rule head) :=
    warnings_eq hrule hr hhead s disjoint
  refine ⟨hwarnings, fun place f hplace label => ?_, fun label => ?_,
    rule.idleFeatures_sublist head, ?_⟩
  · exact (Rule.provides_iff hrule hr hhead hplace).symm
  · rw [(Rule.resolve_eq_ok hr).1]
    exact (Rule.isConsumed_iff hrule).symm
  · rw [hwarnings, List.append_cancel_left_eq, map_unusedWarning_iff,
      Rule.idleFeatures_eq_unusedFeatures_iff, Rule.consumes_provided_iff hrule hr hhead]

end CompileRule

/-- Nouns of a language without genders, and of one with two genders. -/
def genderLexicons : Lexicon × Lexicon :=
  (⟨"source", StringMap.empty.insert "n" none, .empty⟩,
    ⟨"target", StringMap.empty.insert "n" none,
      StringMap.empty.insert "n" (StringMap.empty.insert "gender"
        { lemmas := [⟨"amigo", "m"⟩, ⟨"amiga", "f"⟩], affixes := [⟨"M", "m"⟩, ⟨"F", "f"⟩] })⟩)

/-- A noun that knows its gender, and whose number is given. -/
def genderedNoun (affixes : List Affix) : Rule where
  name := "noun"
  source := [⟨"1", some "n", []⟩]
  target := [
    { id := "1"
      isHead := true
      features := [{ label := "gender", binding := .agreement "α" },
        { label := "number", binding := .fixed "sg" }]
      affixes }]

/-- With an affix for the gender, only the number is unused, and there is a warning about it. -/
theorem warnings_compileRule_genderedNoun :
    let rule := genderedNoun [⟨.after, [{ label := "gender", binding := .agreement "α" }]⟩]
    let s := start genderLexicons.1 genderLexicons.2 {}
    rule.WellFormed ∧ (∃ r, rule.resolve = .ok r) ∧ rule.Consumes "α" ∧
      (s.compileRule none rule).2.report.messages .warning =
        ["Rule 'noun': feature 'number' on head word '1' is not used"] := by
  intro rule s
  have hrule : rule.WellFormed := by decide +kernel
  obtain ⟨r, hr⟩ : ∃ r, rule.resolve = .ok r := ⟨_, rfl⟩
  obtain ⟨head, hhead, hwarnings, -⟩ := warnings_compileRule hrule hr s none
  obtain rfl := Option.some.inj hhead
  exact ⟨hrule, ⟨r, hr⟩, by decide +kernel, hwarnings.trans (by decide +kernel)⟩

/-- **A feature that nothing uses, without a warning.**  Without the affix nothing uses the gender
either.  All the same, there is only the warning about the number. -/
theorem not_warned_genderedNoun :
    let rule := genderedNoun []
    let s := start genderLexicons.1 genderLexicons.2 {}
    rule.WellFormed ∧ rule.isCompilable = true ∧ ¬ rule.Consumes "α" ∧
      rule.head?.map rule.unusedFeatures =
        some [{ label := "gender", binding := .agreement "α" },
          { label := "number", binding := .fixed "sg" }] ∧
      (s.compileRule none rule).2.report.messages .warning =
        ["Rule 'noun': feature 'number' on head word '1' is not used"] := by
  decide +kernel

end Session

end TransferRules
