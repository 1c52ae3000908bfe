import Mathlib.Tactic.Tauto
import TransferRules.Proofs.Session.Runs

/-!
# Processing a specification again

A specification that replaces rules first removes the rules of the names that its own rules ask
for, and then adds its rules, each under a free name.  What a rule is called in the end need not
be what it asked for.  So when the specification is processed again, exactly those of its rules
are replaced whose names were asked for by some rule; the others stay and a copy is added.

## Main Definitions

* `allocated` — the names that some bases get one after the other
* `Rule.isCompilable` — whether a rule is compiled at all

## Main Statements

* `Session.ruleNames_process` — the names of the rules after a specification was processed
* `Session.process_twice_iff` — when processing it again changes nothing about the rules
* `Session.process_twice_of_nodup` — it does not if names neither coincide nor are taken

## Design Notes

Whether a rule is compiled depends on the rule alone, and the free names depend on the names in
use as a set.  Beyond these two facts nothing about compilation matters here.
-/

namespace TransferRules

open TransferRules.Text
open TransferRules.Transfer

/-- The names that some bases get one after the other, when some names are in use. -/
def allocated (used : List String) : List String → List String
  | [] => []
  | base :: bases => freeName base used :: allocated (freeName base used :: used) bases

/-- Whether a rule is compiled at all. -/
def Rule.isCompilable (rule : Rule) : Bool :=
  match rule.resolve with
  | .ok _ => true
  | .error _ => false

/-- The identifiers of the names that some rules ask for. -/
def askedNames (rules : List Rule) : List String := rules.map fun rule => identifier rule.name

theorem askedNames_cons (rule : Rule) (rules : List Rule) :
    askedNames (rule :: rules) = identifier rule.name :: askedNames rules := rfl

section Allocated

variable {used other bases : List String}

/-- Names are allocated alike where the same names are in use. -/
theorem allocated_congr (h : ∀ n, n ∈ used ↔ n ∈ other) :
    allocated used bases = allocated other bases := by
  induction bases generalizing used other with
  | nil => rfl
  | cons base bases ih =>
      have hnext : ∀ n, n ∈ freeName base other :: used ↔ n ∈ freeName base other :: other := by
        intro n
        rw [List.mem_cons, List.mem_cons, h n]
      rw [allocated, allocated, freeName_congr base h, ih hnext]

theorem length_allocated : (allocated used bases).length = bases.length := by
  induction bases generalizing used with
  | nil => rfl
  | cons base bases ih => rw [allocated, List.length_cons, ih, List.length_cons]

/-- What is allocated was not in use. -/
theorem notMem_of_mem_allocated {n : String} (h : n ∈ allocated used bases) : n ∉ used := by
  induction bases generalizing used with
  | nil => cases h
  | cons base bases ih =>
      rcases List.mem_cons.1 h with rfl | h
      · exact freeName_notMem base used
      · exact fun hused => ih h (List.mem_cons_of_mem _ hused)

/-- Distinct bases that are not in use are allocated as they are. -/
theorem allocated_of_nodup (hnodup : bases.Nodup) (hfree : ∀ base ∈ bases, base ∉ used) :
    allocated used bases = bases := by
  induction bases generalizing used with
  | nil => rfl
  | cons base bases ih =>
      obtain ⟨hbase, hnodup⟩ := List.nodup_cons.1 hnodup
      rw [allocated, freeName_of_notMem (hfree base List.mem_cons_self), ih hnodup]
      intro b hb
      rw [List.mem_cons, not_or]
      exact ⟨fun heq => hbase (heq ▸ hb), hfree b (List.mem_cons_of_mem _ hb)⟩

end Allocated

namespace Session

variable {s : Session} {rules : List Rule}

/-! ## One pass over the rules -/

/-- The names in use for rules. -/
def usedRuleNames (s : Session) : List String := s.workspace.names.used.get .rules

theorem ruleNames_subset_used (hs : s.workspace.Coherent) {n : String} (h : n ∈ s.ruleNames) :
    n ∈ s.usedRuleNames :=
  hs.used .rules n h

/-- Removing the rules of a name frees it, if there was one. -/
theorem ruleNames_replaceRule (s : Session) (name : String) :
    (s.replaceRule name).ruleNames = s.ruleNames.filter (· != name) ∧
      ∀ n, n ∈ (s.replaceRule name).usedRuleNames ↔
        n ∈ s.usedRuleNames ∧ ¬ (n = name ∧ n ∈ s.ruleNames) := by
  have hnames : (s.replaceRule name).ruleNames =
      (s.replaceRule name).workspace.document.definitionNames .rules := rfl
  have hused : (s.replaceRule name).usedRuleNames =
      (s.replaceRule name).workspace.names.used.get .rules := rfl
  rw [hnames, hused, workspace_replaceRule]
  by_cases h : name ∈ s.ruleNames
  · rw [if_pos h]
    refine ⟨TransferDocument.definitionNames_removeDefinition.trans (if_pos rfl), fun n => ?_⟩
    refine NameTable.mem_used_release.trans ?_
    by_cases hn : n = name
    · simp [hn, h]
    · simp [hn, usedRuleNames]
  · rw [if_neg h]
    refine ⟨?_, fun n => ?_⟩
    · refine (List.filter_eq_self.2 fun n hn => ?_).symm
      exact bne_iff_ne.2 fun heq => h (heq ▸ hn)
    · by_cases hn : n = name
      · simp [hn, h, usedRuleNames]
      · simp [hn, usedRuleNames]

/-- Removing the rules that are about to be compiled frees the names of those there are. -/
theorem ruleNames_replaceRules (s : Session) (rules : List Rule) :
    (s.replaceRules rules).ruleNames =
        s.ruleNames.filter (fun n => !(askedNames rules).contains n) ∧
      ∀ n, n ∈ (s.replaceRules rules).usedRuleNames ↔
        n ∈ s.usedRuleNames ∧ ¬ (n ∈ askedNames rules ∧ n ∈ s.ruleNames) := by
  unfold replaceRules
  induction rules generalizing s with
  | nil =>
      refine ⟨(List.filter_eq_self.2 fun _ _ => rfl).symm, fun n => ?_⟩
      simp [askedNames]
  | cons rule rules ih =>
      obtain ⟨hnames, hused⟩ := s.ruleNames_replaceRule (identifier rule.name)
      obtain ⟨hnames', hused'⟩ := ih (s.replaceRule (identifier rule.name))
      rw [List.foldl_cons]
      refine ⟨?_, fun n => ?_⟩
      · rw [hnames', hnames, filter_bne_filter]
        rfl
      · rw [hused', hused, hnames, askedNames_cons, List.mem_cons, List.mem_filter]
        by_cases hn : n = identifier rule.name
        · simp [hn]
        · simp [hn]

/-- A rule that is compiled is added at the end, under the free name made from its own. -/
theorem ruleNames_compileRule (hs : s.workspace.Coherent) (disjoint : Option DisjointSet)
    (rule : Rule) :
    (s.compileRule disjoint rule).2.ruleNames = s.ruleNames ++
        (if rule.isCompilable then [freeName (identifier rule.name) s.usedRuleNames] else []) ∧
      ∀ n, n ∈ (s.compileRule disjoint rule).2.usedRuleNames ↔ n ∈ s.usedRuleNames ∨
        rule.isCompilable = true ∧ n = freeName (identifier rule.name) s.usedRuleNames := by
  unfold compileRule Rule.isCompilable
  cases rule.resolve with
  | error issue => simp [note, ruleNames, document, usedRuleNames]
  | ok r =>
      obtain ⟨w, e, hgrows, htag, hname, heq⟩ := s.addCompiled_eq disjoint rule r hs
      obtain ⟨hchildren, hused⟩ := hgrows.rules
      have hfree : (w.names.allocate .rules rule.name).1 =
          freeName (identifier rule.name) s.usedRuleNames := by
        rw [usedRuleNames, ← hused]
        rfl
      rw [hfree] at heq hname
      have hnames : (s.addCompiled disjoint rule r).ruleNames =
          (s.addCompiled disjoint rule r).workspace.document.definitionNames .rules := rfl
      have hafter : (s.addCompiled disjoint rule r).usedRuleNames =
          (s.addCompiled disjoint rule r).workspace.names.used.get .rules := rfl
      have hbefore : w.document.definitionNames .rules = s.ruleNames := by
        rw [TransferDocument.definitionNames_eq, hchildren, ← TransferDocument.definitionNames_eq]
        rfl
      simp only [hnames, hafter, heq]
      refine ⟨?_, fun n => ?_⟩
      · rw [Workspace.definitionNames_define htag hname, if_pos rfl, hbefore]
        rfl
      · refine NameTable.mem_used_reserve.trans ?_
        rw [hused]
        simp [usedRuleNames]

/-- The rules that are compiled are added in their order. -/
theorem ruleNames_compileRules (hs : s.workspace.Coherent) (disjoint : Option DisjointSet)
    (rules : List Rule) :
    (s.compileRules disjoint rules).2.ruleNames = s.ruleNames ++
        allocated s.usedRuleNames (askedNames (rules.filter Rule.isCompilable)) ∧
      ∀ n, n ∈ (s.compileRules disjoint rules).2.usedRuleNames ↔ n ∈ s.usedRuleNames ∨
        n ∈ allocated s.usedRuleNames (askedNames (rules.filter Rule.isCompilable)) := by
  induction rules generalizing s with
  | nil => simp [compileRules, askedNames, allocated]
  | cons rule rules ih =>
      obtain ⟨hnames, hused⟩ := ruleNames_compileRule hs disjoint rule
      have hsteps : Steps disjoint [] s (s.compileRule disjoint rule).2 := compileRule_steps s rule
      have hafter := hs.works (hsteps.works hs)
      obtain ⟨hnames', hused'⟩ := ih hafter
      have hfold : (s.compileRules disjoint (rule :: rules)).2 =
          ((s.compileRule disjoint rule).2.compileRules disjoint rules).2 := rfl
      cases hcompilable : rule.isCompilable with
      | false =>
          simp only [hcompilable] at hnames hused
          have hsame : ∀ n, n ∈ (s.compileRule disjoint rule).2.usedRuleNames ↔
              n ∈ s.usedRuleNames := fun n => by simp [hused]
          rw [hfold, List.filter_cons_of_neg (by simp [hcompilable]), hnames', hnames,
            allocated_congr hsame]
          refine ⟨by simp, fun n => ?_⟩
          rw [hused', hsame, allocated_congr hsame]
      | true =>
          simp only [hcompilable] at hnames hused
          -- The names in use afterwards are, as a set, the ones that `allocated` goes on with.
          have hnext : ∀ n, n ∈ (s.compileRule disjoint rule).2.usedRuleNames ↔
              n ∈ freeName (identifier rule.name) s.usedRuleNames :: s.usedRuleNames := by
            intro n
            rw [hused, List.mem_cons]
            simp [or_comm]
          rw [hfold, List.filter_cons_of_pos hcompilable, askedNames_cons, allocated, hnames',
            hnames, allocated_congr hnext]
          refine ⟨by simp, fun n => ?_⟩
          rw [hused', hnext, allocated_congr hnext, List.mem_cons, List.mem_cons]
          tauto

/-! ## Processing once and twice -/

/-- The names that stay in use when the rules of the names that are asked for are removed. -/
def keptUsed (s : Session) (rules : List Rule) : List String :=
  s.usedRuleNames.filter fun n => !((askedNames rules).contains n && s.ruleNames.contains n)

theorem mem_keptUsed {n : String} : n ∈ s.keptUsed rules ↔
    n ∈ s.usedRuleNames ∧ ¬ (n ∈ askedNames rules ∧ n ∈ s.ruleNames) := by
  rw [keptUsed, List.mem_filter]
  by_cases hn : n ∈ askedNames rules
  · simp [hn]
  · simp [hn]

/-- The names that the rules of a specification get. -/
def givenNames (s : Session) (rules : List Rule) : List String :=
  allocated (s.keptUsed rules) (askedNames (rules.filter Rule.isCompilable))

/-- Removing the rules of the names that are asked for, and compiling all rules again. -/
theorem ruleNames_regenerate (hs : s.workspace.Coherent) (disjoint : Option DisjointSet)
    (rules : List Rule) :
    ((s.replaceRules rules).compileRules disjoint rules).2.ruleNames =
        s.ruleNames.filter (fun n => !(askedNames rules).contains n) ++ s.givenNames rules ∧
      ∀ n, n ∈ ((s.replaceRules rules).compileRules disjoint rules).2.usedRuleNames ↔
        n ∈ s.keptUsed rules ∨ n ∈ s.givenNames rules := by
  have hasked : ∀ rule ∈ rules, identifier rule.name ∈ askedNames rules :=
    fun _ hrule => List.mem_map_of_mem hrule
  have hsteps : Steps disjoint (askedNames rules) s (s.replaceRules rules) :=
    replaceRules_steps rules hasked
  have hcoherent := hs.works (hsteps.works hs)
  obtain ⟨hnames, hused⟩ := s.ruleNames_replaceRules rules
  obtain ⟨hnames', hused'⟩ := ruleNames_compileRules hcoherent disjoint rules
  have hgiven : allocated (s.replaceRules rules).usedRuleNames
      (askedNames (rules.filter Rule.isCompilable)) = s.givenNames rules := by
    exact allocated_congr fun n => (hused n).trans mem_keptUsed.symm
  rw [hgiven] at hnames' hused'
  refine ⟨by rw [hnames', hnames], fun n => ?_⟩
  rw [hused', hused, mem_keptUsed]

/-- **What a specification that replaces rules does to them.**  The rules of the names that are
asked for go, and its own rules come at the end. -/
theorem ruleNames_process (hs : s.workspace.Coherent) {x : Specification} (document : String)
    (hoverwrite : x.overwriteRules = true) :
    (s.process x document).2.ruleNames =
        s.ruleNames.filter (fun n => !(askedNames (x.expansions s.settings)).contains n) ++
          s.givenNames (x.expansions s.settings) ∧
      ∀ n, n ∈ (s.process x document).2.usedRuleNames ↔
        n ∈ s.keptUsed (x.expansions s.settings) ∨
          n ∈ s.givenNames (x.expansions s.settings) := by
  have hprocess : (s.process x document).2.workspace =
      ((({ s with report := s.report.noteAll (x.findings s.settings) } : Session).replaceRules
        (x.expansions s.settings)).compileRules x.disjointSet?
          (x.expansions s.settings)).2.workspace := by
    simp only [process, inform, hoverwrite, if_true]
  -- The report plays no part in what happens to the workspace.
  have hnoted := ruleNames_regenerate
    (s := { s with report := s.report.noteAll (x.findings s.settings) }) hs x.disjointSet?
    (x.expansions s.settings)
  simp only [ruleNames, usedRuleNames, Session.document, hprocess]
  exact hnoted

variable {x : Specification} {document : String}

/-- Names that are given are none that rules keep. -/
theorem notMem_of_mem_givenNames (hs : s.workspace.Coherent) {n : String}
    (hgiven : n ∈ s.givenNames rules) : n ∉ askedNames rules → n ∉ s.ruleNames := by
  intro hasked hrule
  refine notMem_of_mem_allocated hgiven (mem_keptUsed.2 ⟨ruleNames_subset_used hs hrule, ?_⟩)
  exact fun h => hasked h.1

/-- The second run keeps what the first one kept, and those of its names that were not asked
for. -/
theorem ruleNames_process_twice (hs : s.workspace.Coherent) (hoverwrite : x.overwriteRules = true) :
    ((s.process x document).2.process x document).2.ruleNames =
      s.ruleNames.filter (fun n => !(askedNames (x.expansions s.settings)).contains n) ++
        ((s.givenNames (x.expansions s.settings)).filter
          (fun n => !(askedNames (x.expansions s.settings)).contains n) ++
        (s.process x document).2.givenNames (x.expansions s.settings)) := by
  have hafter := hs.works ((s.process_steps x document).works hs)
  obtain ⟨htwice, -⟩ := ruleNames_process hafter document hoverwrite
  obtain ⟨honce, -⟩ := ruleNames_process hs document hoverwrite
  rw [htwice, settings_process, honce, List.filter_append, List.filter_filter, List.append_assoc]
  simp only [Bool.and_self]

/-- If only names are given that were asked for, the second run finds the names of the first one
free again, and gives the same ones in the same order. -/
theorem givenNames_process (hs : s.workspace.Coherent) (hoverwrite : x.overwriteRules = true)
    (hasked : ∀ n ∈ s.givenNames (x.expansions s.settings),
      n ∈ askedNames (x.expansions s.settings)) :
    (s.process x document).2.givenNames (x.expansions s.settings) =
      s.givenNames (x.expansions s.settings) := by
  obtain ⟨hnames, hused⟩ := ruleNames_process hs document hoverwrite
  generalize x.expansions s.settings = rules at hasked hnames hused ⊢
  -- What the first run gave is the name of a rule and was asked for, so it is released again.
  refine allocated_congr fun n => ?_
  have hfresh : n ∈ s.givenNames rules → n ∉ s.keptUsed rules := notMem_of_mem_allocated
  have hrule : n ∈ (s.process x document).2.ruleNames ↔
      (n ∈ s.ruleNames ∧ n ∉ askedNames rules) ∨ n ∈ s.givenNames rules := by
    rw [hnames, List.mem_append, List.mem_filter]
    simp
  have hgiven := hasked n
  rw [mem_keptUsed] at hfresh
  rw [mem_keptUsed, mem_keptUsed, hused, mem_keptUsed, hrule]
  tauto

/-- All names that are given were asked for exactly if every rule has a name that it had before or
that was asked for. -/
theorem givenNames_asked_iff (hs : s.workspace.Coherent) (hoverwrite : x.overwriteRules = true) :
    (∀ n ∈ s.givenNames (x.expansions s.settings), n ∈ askedNames (x.expansions s.settings)) ↔
      ∀ n ∈ (s.process x document).2.ruleNames, n ∈ s.ruleNames ∨
        ∃ rule ∈ x.expansions s.settings, n = identifier rule.name := by
  have hmem : ∀ n, n ∈ askedNames (x.expansions s.settings) ↔
      ∃ rule ∈ x.expansions s.settings, n = identifier rule.name := by
    intro n
    simp [askedNames, eq_comm]
  obtain ⟨hnames, -⟩ := ruleNames_process hs document hoverwrite
  rw [hnames]
  constructor
  · intro hasked n hn
    rcases List.mem_append.1 hn with hold | hgiven
    · exact .inl (List.mem_filter.1 hold).1
    · exact .inr ((hmem n).1 (hasked n hgiven))
  · intro hall n hgiven
    by_cases hn : n ∈ askedNames (x.expansions s.settings)
    · exact hn
    · rcases hall n (List.mem_append_right _ hgiven) with hold | hasked
      · exact absurd hold (notMem_of_mem_givenNames hs hgiven hn)
      · exact (hmem n).2 hasked

/-- **Exactly when a second run changes nothing.**  Every rule that the first run left must have a
name that a rule had before, or one that some rule of the specification asks for. -/
theorem process_twice_iff (hs : s.workspace.Coherent) (hoverwrite : x.overwriteRules = true) :
    (((s.process x document).2.process x document).2.ruleNames.Perm
        (s.process x document).2.ruleNames ↔
      ∀ n ∈ s.givenNames (x.expansions s.settings), n ∈ askedNames (x.expansions s.settings)) ∧
    ((∀ n ∈ s.givenNames (x.expansions s.settings), n ∈ askedNames (x.expansions s.settings)) →
      ((s.process x document).2.process x document).2.ruleNames =
        (s.process x document).2.ruleNames) := by
  have hequal : (∀ n ∈ s.givenNames (x.expansions s.settings),
      n ∈ askedNames (x.expansions s.settings)) →
      ((s.process x document).2.process x document).2.ruleNames =
        (s.process x document).2.ruleNames := by
    intro hasked
    have hnone : (s.givenNames (x.expansions s.settings)).filter
        (fun n => !(askedNames (x.expansions s.settings)).contains n) = [] := by
      rw [List.filter_eq_nil_iff]
      intro n hn
      simpa using hasked n hn
    rw [ruleNames_process_twice hs hoverwrite, givenNames_process hs hoverwrite hasked, hnone,
      List.nil_append, (ruleNames_process hs document hoverwrite).1]
  refine ⟨⟨fun hperm => ?_, fun hasked => hequal hasked ▸ .refl _⟩, hequal⟩
  -- Both runs give as many names, so none of the first one can have been left.
  have hlength := hperm.length_eq
  rw [ruleNames_process_twice hs hoverwrite,
    (ruleNames_process hs document hoverwrite).1] at hlength
  simp only [List.length_append, givenNames, length_allocated] at hlength
  have hnone := List.eq_nil_of_length_eq_zero (show ((s.givenNames (x.expansions s.settings)).filter
    fun n => !(askedNames (x.expansions s.settings)).contains n).length = 0 by
      rw [givenNames]
      omega)
  intro n hn
  simpa using List.filter_eq_nil_iff.1 hnone n hn

/-- Names that neither coincide nor are taken by anything but a rule are given as they were asked
for, so a second run changes nothing. -/
theorem process_twice_of_nodup (hs : s.workspace.Coherent) (hoverwrite : x.overwriteRules = true)
    (hnodup : (askedNames ((x.expansions s.settings).filter Rule.isCompilable)).Nodup)
    (hfree : ∀ n ∈ askedNames (x.expansions s.settings),
      n ∈ s.usedRuleNames → n ∈ s.ruleNames) :
    ((s.process x document).2.process x document).2.ruleNames =
      (s.process x document).2.ruleNames := by
  have hasked : ∀ n ∈ askedNames ((x.expansions s.settings).filter Rule.isCompilable),
      n ∈ askedNames (x.expansions s.settings) :=
    fun n hn => (List.filter_sublist.map _).subset hn
  refine (process_twice_iff hs hoverwrite).2 fun n hn => hasked n ?_
  rwa [givenNames, allocated_of_nodup hnodup] at hn
  intro base hbase hkept
  obtain ⟨hused, hnot⟩ := mem_keptUsed.1 hkept
  exact hnot ⟨hasked base hbase, hfree base (hasked base hbase) hused⟩

/-- **Regeneration is idempotent only in part.**  In every session that was started and run,
processing a specification that replaces rules a second time leaves the same rule names, each as
often, exactly if the first run left no rule under a name that is new and that no rule of the
specification asks for.  Then even their order is the same. -/
theorem regeneration_perm_iff (source target : Lexicon) (settings : GeneratorSettings)
    (events : List Event) (x : Specification) (document : String)
    (hoverwrite : x.overwriteRules = true) :
    let s := (start source target settings).run events
    let once := (s.process x document).2
    let twice := (once.process x document).2
    (twice.ruleNames.Perm once.ruleNames ↔
        ∀ name ∈ once.ruleNames, name ∈ s.ruleNames ∨
          ∃ rule ∈ x.expansions s.settings, name = identifier rule.name) ∧
      (twice.ruleNames.Perm once.ruleNames → twice.ruleNames = once.ruleNames) := by
  intro s once twice
  have hs : s.workspace.Coherent := coherent_run source target settings events
  refine ⟨(process_twice_iff hs hoverwrite).1.trans (givenNames_asked_iff hs hoverwrite), ?_⟩
  intro hperm
  exact (process_twice_iff hs hoverwrite).2 ((process_twice_iff hs hoverwrite).1.1 hperm)

/-- A noun phrase with some adjectives, each of which may be left out. -/
def nounPhrase (adjectives : List String) : Specification where
  overwriteRules := true
  rules := [{
    rule := {
      name := "noun phrase"
      source := ⟨"1", some "n", []⟩ :: adjectives.map fun id => ⟨id, some "adj", []⟩
      target := { id := "1", isHead := true } :: adjectives.map fun id => { id } }
    permuted := some true }]

/-- With one adjective the names are distinct, and a second run changes nothing. -/
theorem regeneration_perm_iff_oneAdjective :
    (nounPhrase ["2"]).overwriteRules = true ∧
      (((start ⟨"source", .empty, .empty⟩ ⟨"target", .empty, .empty⟩ {}).process
          (nounPhrase ["2"]) "spec").2.process (nounPhrase ["2"]) "spec").2.ruleNames =
        ((start ⟨"source", .empty, .empty⟩ ⟨"target", .empty, .empty⟩ {}).process
          (nounPhrase ["2"]) "spec").2.ruleNames := by
  refine ⟨rfl, ?_⟩
  obtain ⟨hperm, hequal⟩ := regeneration_perm_iff ⟨"source", .empty, .empty⟩
    ⟨"target", .empty, .empty⟩ {} [] (nounPhrase ["2"]) "spec" rfl
  refine hequal (hperm.2 ((givenNames_asked_iff (coherent_run _ _ _ []) rfl).1 ?_))
  decide +kernel

/-- With two adjectives the two rules that keep one of them ask for one name.  The second run does
not replace the rule that got a number, and adds a copy of it. -/
theorem regeneration_twoAdjectives_accumulates :
    ¬ ∀ (source target : Lexicon) (settings : GeneratorSettings) (events : List Event)
        (x : Specification) (document : String), x.overwriteRules = true →
        (((((start source target settings).run events).process x document).2.process x
            document).2.ruleNames.Perm
          (((start source target settings).run events).process x document).2.ruleNames) := by
  intro hall
  have hperm := hall ⟨"source", .empty, .empty⟩ ⟨"target", .empty, .empty⟩ {} []
    (nounPhrase ["2", "3"]) "spec" rfl
  have hasked := (process_twice_iff (coherent_run _ _ _ _) rfl).1.1 hperm "noun_phrase_n_adj1"
  revert hasked
  decide +kernel

end Session

end TransferRules
