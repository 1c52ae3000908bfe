import TransferRules.Proofs.Compile.Repetition
import TransferRules.Proofs.Session.Skipping

/-!
# Processing a specification again

A specification that is processed twice in a row adds its rules twice, but nothing that rules share.
The first time makes the categories, attributes and macros that its rules need, whatever was there
before; the second time finds them.  It finds the variables, too, provided that all features could
be resolved.

## Main Definitions

* `Session.prepared` — a session when the rules of a specification are about to be compiled

## Main Statements

* `Session.compileRules_rests` — rules that are compiled again leave the workspace where a round
  left it
* `Session.sections_process_twice` — so a specification that is processed again leaves the sections
  as they are
-/

namespace TransferRules

open TransferRules.Compile
open TransferRules.Text
open TransferRules.Transfer

namespace Session

variable {round : Round} {s s' : Session} {disjoint : Option DisjointSet}

/-- The state in which the compilation of a rule starts. -/
def emission (s : Session) : Emission where
  workspace := s.workspace
  report := s.report

/-! ## Compiling rules -/

/-- What was there before a rule is compiled lasts. -/
theorem addCompiled_onward (hlexicons : s.lexicons disjoint = round.lexicons) (rule : Rule)
    (r : Resolution) :
    Onward round.lexicons s.emission (s.addCompiled disjoint rule r).emission ∧
      Onward round.lexicons (compile round.lexicons rule r s.emission).2
        (s.addCompiled disjoint rule r).emission := by
  have hcompiled : Onward round.lexicons s.emission _ := compile_onward rule r s.emission
  have hadded : Onward round.lexicons (compile round.lexicons rule r s.emission).2
      (s.addCompiled disjoint rule r).emission := by
    unfold Session.addCompiled
    rw [hlexicons]
    exact ⟨.of_addDefinition (e := ((compile round.lexicons rule r s.emission).1.toElement _)) rfl
      rfl rfl rfl, List.prefix_rfl⟩
  exact ⟨hcompiled.trans hadded, hadded⟩

/-- A rule that is compiled again leaves the workspace where the round left it. -/
theorem addCompiled_rests (hlexicons : s.lexicons disjoint = round.lexicons)
    (hlexicons' : s'.lexicons disjoint = round.lexicons)
    (hsince : round.earlier.entries <+: s.report.entries)
    (hrests : Workspace.Rests round.Clean round.workspace s'.workspace) {rule : Rule}
    {r : Resolution} (hbefore : round.Before (s.addCompiled disjoint rule r).emission) :
    Workspace.Rests round.Clean round.workspace (s'.addCompiled disjoint rule r).workspace := by
  have halongside : Alongside round s.emission s'.emission := ⟨hsince, hrests, rfl⟩
  have hcompiled := compile_rests rule r halongside
    (hbefore.of_onward (addCompiled_onward hlexicons rule r).2)
  unfold Session.addCompiled
  rw [hlexicons']
  exact hcompiled.addRule _ _

theorem compileRule_onward (hlexicons : s.lexicons disjoint = round.lexicons) (rule : Rule) :
    Onward round.lexicons s.emission (s.compileRule disjoint rule).2.emission := by
  unfold compileRule
  cases rule.resolve with
  | ok r => exact (addCompiled_onward hlexicons rule r).1
  | error issue => exact .tell _ s.emission _

theorem lexicons_compileRule (s : Session) (rule : Rule) :
    (s.compileRule disjoint rule).2.lexicons disjoint = s.lexicons disjoint := by
  unfold compileRule
  cases rule.resolve with
  | ok r => rfl
  | error issue => rfl

theorem lexicons_compileRules (s : Session) (rules : List Rule) :
    (s.compileRules disjoint rules).2.lexicons disjoint = s.lexicons disjoint := by
  induction rules generalizing s with
  | nil => rfl
  | cons rule rules ih => exact (ih _).trans (lexicons_compileRule s rule)

theorem compileRules_onward (hlexicons : s.lexicons disjoint = round.lexicons)
    (rules : List Rule) :
    Onward round.lexicons s.emission (s.compileRules disjoint rules).2.emission := by
  induction rules generalizing s with
  | nil => exact .refl _ s.emission
  | cons rule rules ih =>
      exact (compileRule_onward hlexicons rule).trans
        (ih ((lexicons_compileRule s rule).trans hlexicons))

/-- **Rules that are compiled again** leave the workspace where the round left it. -/
theorem compileRules_rests (hlexicons : s.lexicons disjoint = round.lexicons)
    (hlexicons' : s'.lexicons disjoint = round.lexicons)
    (hsince : round.earlier.entries <+: s.report.entries)
    (hrests : Workspace.Rests round.Clean round.workspace s'.workspace) {rules : List Rule}
    (hbefore : round.Before (s.compileRules disjoint rules).2.emission) :
    Workspace.Rests round.Clean round.workspace (s'.compileRules disjoint rules).2.workspace := by
  induction rules generalizing s s' with
  | nil => exact hrests
  | cons rule rules ih =>
      have hfirst := compileRule_onward hlexicons rule
      have hnext := (lexicons_compileRule s rule).trans hlexicons
      refine ih hnext ((lexicons_compileRule s' rule).trans hlexicons')
        (hsince.trans hfirst.report) ?_ hbefore
      have hreached : round.Before (s.compileRule disjoint rule).2.emission :=
        hbefore.of_onward (compileRules_onward hnext rules)
      show Workspace.Rests round.Clean round.workspace (s'.compileRule disjoint rule).2.workspace
      unfold compileRule at hreached ⊢
      cases hresolve : rule.resolve with
      | ok r =>
          rw [hresolve] at hreached
          exact addCompiled_rests hlexicons hlexicons' hsince hrests hreached
      | error issue => exact hrests

/-! ## Processing a specification -/

/-- The session when the rules of a specification are about to be compiled. -/
def prepared (s : Session) (x : Specification) : Session :=
  let noted := { s with report := s.report.noteAll (x.findings s.settings) }
  if x.overwriteRules then noted.replaceRules (x.expansions s.settings) else noted

theorem process_eq_prepared (s : Session) (x : Specification) (document : String) :
    ∃ message, (s.process x document).2 =
      ((s.prepared x).compileRules x.disjointSet? (x.expansions s.settings)).2.inform message :=
  ⟨_, rfl⟩

/-- Until then, some rules are discarded and some messages are noted. -/
theorem prepared_eq (s : Session) (x : Specification) :
    ∃ (names : List String) (entries : List ReportEntry), s.prepared x =
      { s with
        workspace := s.workspace.discard .rules names
        report := ⟨s.report.entries ++ entries⟩ } := by
  unfold prepared
  rw [report_noteAll]
  dsimp only
  split
  · obtain ⟨entries, heq⟩ := replaceRules_eq
      ({ s with report := ⟨s.report.entries ++ _⟩ } : Session) (x.expansions s.settings)
    rw [heq, List.append_assoc]
    exact ⟨_, _, rfl⟩
  · exact ⟨[], _, rfl⟩

/-- **A specification that is processed again** adds nothing that rules share.  Whatever a session
holds, the second time leaves the sections of the categories, attributes and macros exactly as the
first time left them; and if the first time no feature was reported to be unresolved, it leaves the
section of the variables, too. -/
theorem sections_process_twice (s : Session) (x : Specification) (document : String) :
    let once := (s.process x document).2
    let twice := (once.process x document).2
    twice.document.sectionOf? .categories = once.document.sectionOf? .categories ∧
      twice.document.sectionOf? .attributes = once.document.sectionOf? .attributes ∧
      twice.document.sectionOf? .macros = once.document.sectionOf? .macros ∧
      (¬ Report.Unresolved ⟨once.report.entries.drop s.report.entries.length⟩ →
        twice.document.sectionOf? .vars = once.document.sectionOf? .vars) := by
  intro once twice
  let round : Round := ⟨s.lexicons x.disjointSet?, s.report, once.workspace, once.report⟩
  suffices hrests : Workspace.Rests round.Clean once.workspace twice.workspace from
    ⟨hrests.sections .categories ⟨nofun, nofun⟩, hrests.sections .attributes ⟨nofun, nofun⟩,
      hrests.sections .macros ⟨nofun, nofun⟩, fun hclean =>
        hrests.sections .vars ⟨nofun, fun _ => hclean⟩⟩
  -- The first time the rules are compiled in a round of which all begins with the old report.
  obtain ⟨message, honce⟩ := s.process_eq_prepared x document
  obtain ⟨names, entries, hprepared⟩ := s.prepared_eq x
  have hlexicons : (s.prepared x).lexicons x.disjointSet? = round.lexicons := by
    rw [hprepared]
    rfl
  have hsince : round.earlier.entries <+: (s.prepared x).report.entries := by
    rw [hprepared]
    exact List.prefix_append _ _
  have hbefore : round.Before
      ((s.prepared x).compileRules x.disjointSet? (x.expansions s.settings)).2.emission := by
    show Round.Before ⟨_, _, (s.process x document).2.workspace, (s.process x document).2.report⟩ _
    rw [honce]
    exact ⟨.refl _, List.prefix_append _ _⟩
  -- The second time the rules are the same, and are compiled where the round has left off.
  obtain ⟨message', htwice⟩ := once.process_eq_prepared x document
  obtain ⟨names', entries', hprepared'⟩ := once.prepared_eq x
  have hlexicons' : (once.prepared x).lexicons x.disjointSet? = round.lexicons := by
    rw [hprepared']
    show (s.process x document).2.lexicons x.disjointSet? = _
    rw [honce]
    exact (lexicons_compileRules _ _).trans hlexicons
  have hrests : Workspace.Rests round.Clean round.workspace (once.prepared x).workspace := by
    rw [hprepared']
    exact (Workspace.Rests.refl once.workspace).discardRules names'
  have hsettings : once.settings = s.settings := settings_process x document
  show Workspace.Rests _ _ (once.process x document).2.workspace
  rw [htwice, hsettings]
  exact compileRules_rests hlexicons hlexicons' hsince hrests hbefore

end Session

end TransferRules
