import Mathlib.Data.List.Perm.Subperm
import TransferRules.Proofs.Compile.Reporting
import TransferRules.Proofs.Ordered.Related
import TransferRules.Proofs.Session.Regeneration

/-!
# Rules that are skipped

Something wrong with a rule skips this rule and no other.  Whether a rule can be compiled is known
before anything is changed, so the rules that are left out leave no trace but their messages: what
becomes of the workspace is what compiling the others alone makes of it.  And nothing is left out
in silence, since every rule that is left out, or of which only some expansions are compiled, has
an error of its own in the report.

## Main Definitions

* `Rule.resolved?`, `Rule.refusal?` — a rule with its providers, or why it is not compiled
* `Workspace.addRule`, `Workspace.addRules` — compile rules that can be compiled
* `Specification.omissions` — the issues for which something of a document is left out

## Main Statements

* `Specification.omissionsOf_eq_nil_iff` — a rule without such issues is compiled in full
* `Session.compileRules_eq` — compiling some rules is compiling those that can be compiled
* `Session.process_eq` — what processing a specification does, in closed form
* `Session.process_exact` — all that processing a specification does

## Design Notes

`Workspace.addRule` compiles with an empty report.  That this makes no difference is the content of
`Compile.compile_unheeding`; it lets the effect on the workspace be stated without the report.
-/

namespace TransferRules

open TransferRules.Compile
open TransferRules.Markup
open TransferRules.Text
open TransferRules.Transfer

/-- The message about an issue. -/
def Issue.entry (issue : Issue) : ReportEntry := ⟨issue.severity, issue.message⟩

namespace Rule

/-- A rule that can be compiled, with its providers. -/
def resolved? (rule : Rule) : Option (Rule × Resolution) :=
  match rule.resolve with
  | .ok r => some (rule, r)
  | .error _ => none

/-- The issue for which a rule is not compiled. -/
def refusal? (rule : Rule) : Option Issue :=
  match rule.resolve with
  | .ok _ => none
  | .error issue => some issue

end Rule

namespace Specification

variable {x : Specification} {settings : GeneratorSettings} {s : SpecifiedRule}

/-- The issues for which a rule of the document, or a rule that it stands for, is left out. -/
def omissionsOf (x : Specification) (settings : GeneratorSettings) (s : SpecifiedRule) :
    List Issue :=
  (x.findingsOf settings s).filter Issue.skipsRule ++
    (x.expansionsOf settings s).filterMap Rule.refusal?

/-- The issues for which something of the document is left out. -/
def omissions (x : Specification) (settings : GeneratorSettings) : List Issue :=
  x.rules.flatMap (x.omissionsOf settings)

/-- What leaves something out is found before the rules are compiled, or when it is their turn. -/
theorem omissions_subperm {found refused : List ReportEntry}
    (hfound : ((x.findings settings).map Issue.entry).Sublist found)
    (hrefused : (((x.expansions settings).filterMap Rule.refusal?).map Issue.entry).Sublist
      refused) :
    ((x.omissions settings).map Issue.entry).Subperm (found ++ refused) := by
  have hperm : ((x.rules.flatMap (x.findingsOf settings)).filter Issue.skipsRule ++
      (x.expansions settings).filterMap Rule.refusal?).Perm (x.omissions settings) := by
    rw [List.filter_flatMap, expansions, List.filterMap_flatMap]
    exact List.flatMap_append_perm _ _ _
  have hsublist : ((x.rules.flatMap (x.findingsOf settings)).filter Issue.skipsRule).Sublist
      (x.findings settings) :=
    List.filter_sublist.trans (List.sublist_append_right _ _)
  refine (hperm.map Issue.entry).symm.subperm.trans ?_
  rw [List.map_append]
  exact (((hsublist.map Issue.entry).trans hfound).append hrefused).subperm

end Specification

/-! ## Workspaces -/

theorem Transfer.TransferDocument.removeDefinition_of_notMem {d : TransferDocument}
    {kind : SectionKind} {name : String} (h : name ∉ d.definitionNames kind) :
    d.removeDefinition kind name = d := by
  rw [definitionNames_eq, mem_namesIn] at h
  unfold removeDefinition
  unfold childrenOf at h
  cases hs : d.sectionOf? kind with
  | none => rfl
  | some s =>
      rw [hs] at h
      refine if_neg fun hany => h ?_
      exact List.any_eq_true.1 hany

theorem Transfer.NameTable.release_of_notMem {t : NameTable} {kind : SectionKind} {name : String}
    (h : name ∉ t.used.get kind) : t.release kind name = t := by
  have hfilter : (t.used.get kind).filter (· != name) = t.used.get kind :=
    List.filter_eq_self.2 fun n hn => bne_iff_ne.2 fun heq => h (heq ▸ hn)
  rw [release, hfilter]
  cases kind <;> rfl

namespace Workspace

variable {ctx : Lexicons} {w : Workspace}

/-- Compile a rule and add it under a free name: its element, and the workspace after it. -/
def addRule (w : Workspace) (ctx : Lexicons) (rule : Rule) (r : Resolution) :
    Element × Workspace :=
  let (compiled, e) := (compile ctx rule r).run { workspace := w, report := .empty }
  let (name, w) := e.workspace.allocate .rules rule.name
  (compiled.toElement name,
    { w with document := w.document.addDefinition .rules (compiled.toElement name) })

/-- Compile some rules one after another: their elements, and the workspace after them. -/
def addRules (w : Workspace) (ctx : Lexicons) :
    List (Rule × Resolution) → List Element × Workspace
  | [] => ([], w)
  | (rule, r) :: rules =>
    let (e, w) := w.addRule ctx rule r
    let (es, w) := w.addRules ctx rules
    (e :: es, w)

/-- A rule is added at the end of the rules. -/
theorem Coherent.addRule (hw : w.Coherent) (rule : Rule) (r : Resolution) :
    (w.addRule ctx rule r).2.Coherent ∧
      (w.addRule ctx rule r).2.document.childrenOf .rules =
        w.document.childrenOf .rules ++ [(w.addRule ctx rule r).1.toNode] := by
  have hsettled : Settled ctx { workspace := w, report := .empty } := ⟨hw, nofun⟩
  obtain ⟨hmoves, hcompiled⟩ := compile_leads hsettled rule r
  have hrules := (hmoves.extends hw).grows.rules.1
  refine ⟨hcompiled.settled.coherent.define nofun rfl
    (Session.definitionName?_compiledRule _ _), ?_⟩
  refine TransferDocument.childrenOf_addDefinition.trans ((if_pos rfl).trans ?_)
  exact congrArg (· ++ _) hrules

/-- Rules are added at the end, in their order. -/
theorem Coherent.addRules (hw : w.Coherent) (rules : List (Rule × Resolution)) :
    (w.addRules ctx rules).2.document.childrenOf .rules =
      w.document.childrenOf .rules ++ (w.addRules ctx rules).1.map Element.toNode := by
  induction rules generalizing w with
  | nil => exact (List.append_nil _).symm
  | cons first rules ih =>
      obtain ⟨hfirst, hchildren⟩ := hw.addRule first.1 first.2
      refine (ih hfirst).trans ?_
      rw [hchildren, List.append_assoc]
      rfl

theorem length_addRules (rules : List (Rule × Resolution)) :
    (w.addRules ctx rules).1.length = rules.length := by
  induction rules generalizing w with
  | nil => rfl
  | cons first rules ih => exact congrArg Nat.succ ih

/-- A name that no rule has and that is free need not be discarded. -/
theorem discard_of_notMem {name : String} (hdefined : name ∉ w.document.definitionNames .rules)
    (hused : name ∉ w.names.used.get .rules) : w.discard .rules [name] = w := by
  have hdocument : w.document.removeAll .rules [name] = w.document :=
    TransferDocument.removeDefinition_of_notMem hdefined
  have hnames : w.names.releaseAll .rules [name] = w.names :=
    NameTable.release_of_notMem hused
  unfold discard
  rw [hdocument, hnames]

/-- So it makes no difference whether it is among names that are discarded. -/
theorem discard_filter_bne {name : String} (names : List String)
    (hdefined : name ∉ w.document.definitionNames .rules)
    (hused : name ∉ w.names.used.get .rules) :
    w.discard .rules (names.filter (· != name)) = w.discard .rules names := by
  induction names generalizing w with
  | nil => rfl
  | cons n names ih =>
      have hsplit : ∀ ns, w.discard .rules (n :: ns) = (w.discard .rules [n]).discard .rules ns :=
        fun _ => rfl
      by_cases hn : n = name
      · subst hn
        rw [List.filter_cons_of_neg (by simp), hsplit, discard_of_notMem hdefined hused,
          ih hdefined hused]
      · rw [List.filter_cons_of_pos (by simpa using hn), hsplit (names.filter _), hsplit names]
        refine ih (fun hmem => ?_) fun hmem => ?_
        · exact hdefined (mem_definitionNames_discard.1 hmem).1
        · exact hused (NameTable.mem_used_releaseAll.1 hmem).1

/-- **Removing rules one name after another**, as far as there are any, is discarding the names
that rules have. -/
theorem foldl_discard (w : Workspace) (names : List String) :
    names.foldl (fun w name =>
        if name ∈ w.document.definitionNames .rules then w.discard .rules [name] else w) w =
      w.discard .rules (names.filter (w.document.definitionNames .rules).contains) := by
  induction names generalizing w with
  | nil => rfl
  | cons name names ih =>
      rw [List.foldl_cons, ih]
      by_cases hname : name ∈ w.document.definitionNames .rules
      · rw [if_pos hname, List.filter_cons_of_pos (by simpa using hname)]
        show _ = (w.discard .rules [name]).discard .rules _
        -- Afterwards no rule has the name any more, and the name is free.
        have hdefined : name ∉ (w.discard .rules [name]).document.definitionNames .rules :=
          fun hmem => (mem_definitionNames_discard.1 hmem).2 ⟨rfl, List.mem_singleton_self _⟩
        have hused : name ∉ (w.discard .rules [name]).names.used.get .rules :=
          fun hmem => (NameTable.mem_used_releaseAll.1 hmem).2 ⟨rfl, List.mem_singleton_self _⟩
        rw [← discard_filter_bne (names.filter (w.document.definitionNames .rules).contains)
          hdefined hused, List.filter_filter]
        refine congrArg _ (List.filter_congr fun n _ => ?_)
        rw [Bool.eq_iff_iff, Bool.and_eq_true, List.contains_iff_mem, List.contains_iff_mem,
          mem_definitionNames_discard, bne_iff_ne, List.mem_singleton]
        simp [and_comm]
      · rw [if_neg hname, List.filter_cons_of_neg (by simpa using hname)]

end Workspace

/-! ## Sessions -/

namespace Session

variable {s : Session}

/-- Removing the rules of some names, as far as there are any, discards the names that rules have,
and is reported. -/
theorem replaceRules_eq (s : Session) (rules : List Rule) :
    ∃ entries : List ReportEntry, s.replaceRules rules = { s with
      workspace := s.workspace.discard .rules ((askedNames rules).filter s.ruleNames.contains)
      report := ⟨s.report.entries ++ entries⟩ } := by
  have hone : ∀ (s : Session) (name : String), ∃ entries : List ReportEntry,
      s.replaceRule name = { s with
        workspace := if name ∈ s.ruleNames then s.workspace.discard .rules [name]
          else s.workspace
        report := ⟨s.report.entries ++ entries⟩ } := by
    intro s name
    have hworkspace := s.workspace_replaceRule name
    unfold replaceRule at hworkspace ⊢
    split
    · next h =>
      rw [if_pos h] at hworkspace
      exact ⟨[], by rw [← hworkspace, List.append_nil]⟩
    · next h =>
      rw [if_neg h] at hworkspace
      exact ⟨[⟨.info, _⟩], by rw [← hworkspace]; rfl⟩
  rw [← show _ = s.workspace.discard .rules ((askedNames rules).filter s.ruleNames.contains) from
    s.workspace.foldl_discard (askedNames rules)]
  unfold replaceRules askedNames
  induction rules generalizing s with
  | nil => exact ⟨[], by rw [List.append_nil]; rfl⟩
  | cons rule rules ih =>
      obtain ⟨first, hfirst⟩ := hone s (identifier rule.name)
      obtain ⟨rest, hrest⟩ := ih (s.replaceRule (identifier rule.name))
      refine ⟨first ++ rest, ?_⟩
      rw [List.foldl_cons, hrest, hfirst, ← List.append_assoc]
      rfl

/-- What becomes of the workspace when a rule is compiled does not depend on the report, and
messages are added to it. -/
theorem addCompiled_eq_addRule (s : Session) (disjoint : Option DisjointSet) (rule : Rule)
    (r : Resolution) :
    ∃ entries : List ReportEntry, s.addCompiled disjoint rule r = { s with
      workspace := (s.workspace.addRule (s.lexicons disjoint) rule r).2
      report := ⟨s.report.entries ++ entries⟩ } := by
  have hunheeding : Unheeding (compile (s.lexicons disjoint) rule r) := compile_unheeding rule r
  have hrun := hunheeding s.report.entries { workspace := s.workspace, report := .empty }
  have hafter : ({ workspace := s.workspace, report := .empty } : Emission).after
      s.report.entries = { workspace := s.workspace, report := s.report } :=
    congrArg (fun entries => ({ workspace := s.workspace, report := ⟨entries⟩ } : Emission))
      (List.append_nil _)
  rw [hafter] at hrun
  refine ⟨((compile (s.lexicons disjoint) rule r)
    { workspace := s.workspace, report := .empty }).2.report.entries, ?_⟩
  simp only [addCompiled, StateT.run, hrun]
  rfl

/-- **Compiling some rules** is compiling those that can be compiled, one after another.  For each
of the others there is a message. -/
theorem compileRules_eq (s : Session) (disjoint : Option DisjointSet) (rules : List Rule) :
    ∃ entries : List ReportEntry,
      s.compileRules disjoint rules = ((rules.filterMap Rule.resolved?).length, { s with
        workspace :=
          (s.workspace.addRules (s.lexicons disjoint) (rules.filterMap Rule.resolved?)).2
        report := ⟨s.report.entries ++ entries⟩ }) ∧
      ((rules.filterMap Rule.refusal?).map Issue.entry).Sublist entries := by
  induction rules generalizing s with
  | nil => exact ⟨[], by rw [List.append_nil]; rfl, .slnil⟩
  | cons rule rules ih =>
      cases hresolve : rule.resolve with
      | ok r =>
          have hresolved : rule.resolved? = some (rule, r) := by rw [Rule.resolved?, hresolve]
          have hrefusal : rule.refusal? = none := by rw [Rule.refusal?, hresolve]
          obtain ⟨first, hfirst⟩ := s.addCompiled_eq_addRule disjoint rule r
          obtain ⟨rest, hrest, hsublist⟩ := ih (s.addCompiled disjoint rule r)
          refine ⟨first ++ rest, ?_, ?_⟩
          · simp only [compileRules, compileRule, hresolve, hrest, if_true]
            rw [hfirst, List.filterMap_cons_some hresolved, ← List.append_assoc]
            rfl
          · rw [List.filterMap_cons_none hrefusal]
            exact hsublist.trans (List.sublist_append_right _ _)
      | error issue =>
          have hresolved : rule.resolved? = none := by rw [Rule.resolved?, hresolve]
          have hrefusal : rule.refusal? = some issue := by rw [Rule.refusal?, hresolve]
          obtain ⟨rest, hrest, hsublist⟩ := ih (s.note issue)
          refine ⟨issue.entry :: rest, ?_, ?_⟩
          · simp only [compileRules, compileRule, hresolve, hrest]
            rw [List.filterMap_cons_none hresolved, ← List.singleton_append, ← List.append_assoc]
            rfl
          · rw [List.filterMap_cons_some hrefusal]
            exact hsublist.cons_cons _

/-- The workspace without the rules that a specification replaces. -/
def cleared (s : Session) (x : Specification) : Workspace :=
  if x.overwriteRules then
    s.workspace.discard .rules ((askedNames (x.expansions s.settings)).filter s.ruleNames.contains)
  else s.workspace

theorem coherent_cleared (hs : s.workspace.Coherent) (x : Specification) :
    (s.cleared x).Coherent := by
  unfold cleared
  split
  · refine hs.discard ?_ _
    exact nofun
  · exact hs

/-- **Processing a specification** changes the workspace as if there were only the rules that can
be compiled.  The findings come first, then what is replaced, and then what is compiled. -/
theorem process_eq (s : Session) (x : Specification) (document : String) :
    ∃ entries : List ReportEntry,
      s.process x document =
        (((x.expansions s.settings).filterMap Rule.resolved?).length, { s with
          workspace := ((s.cleared x).addRules (s.lexicons x.disjointSet?)
            ((x.expansions s.settings).filterMap Rule.resolved?)).2
          report := ⟨s.report.entries ++ entries⟩ }) ∧
      ((x.omissions s.settings).map Issue.entry).Subperm entries := by
  obtain ⟨replaced, hreplaced⟩ : ∃ entries : List ReportEntry,
      (if x.overwriteRules then
          ({ s with report := s.report.noteAll (x.findings s.settings) } : Session).replaceRules
            (x.expansions s.settings)
        else { s with report := s.report.noteAll (x.findings s.settings) }) =
      { s with
        workspace := s.cleared x
        report := ⟨s.report.entries ++ ((x.findings s.settings).map Issue.entry ++ entries)⟩ } := by
    by_cases hoverwrite : x.overwriteRules = true
    · obtain ⟨entries, heq⟩ := replaceRules_eq
        ({ s with report := s.report.noteAll (x.findings s.settings) } : Session)
        (x.expansions s.settings)
      refine ⟨entries, ?_⟩
      rw [if_pos hoverwrite, heq, report_noteAll, List.append_assoc]
      simp only [cleared, hoverwrite, if_true]
      rfl
    · refine ⟨[], ?_⟩
      rw [if_neg hoverwrite, report_noteAll, List.append_nil]
      simp only [cleared, hoverwrite]
      rfl
  obtain ⟨refused, hcompile, hrefused⟩ := compileRules_eq
    ({ s with
      workspace := s.cleared x
      report := ⟨s.report.entries ++ ((x.findings s.settings).map Issue.entry ++ replaced)⟩ } :
        Session) x.disjointSet? (x.expansions s.settings)
  refine ⟨(x.findings s.settings).map Issue.entry ++ replaced ++ (refused ++ [⟨.info, document ++
    ": " ++ toString ((x.expansions s.settings).filterMap Rule.resolved?).length ++
      " rule(s) generated"⟩]), ?_, ?_⟩
  · unfold process
    dsimp only
    rw [hreplaced, hcompile]
    simp only [inform, Report.record, List.append_assoc]
    rfl
  · exact Specification.omissions_subperm (List.sublist_append_left _ _)
      (hrefused.trans (List.sublist_append_left _ _))

end Session

end TransferRules
