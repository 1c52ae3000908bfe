import TransferRules.Proofs.Compile.Composition

/-!
# The messages of a compilation

A compilation adds messages to the report and never looks at it.  So what a rule is compiled to,
and what becomes of the workspace, does not depend on what was reported before, and the messages of
a compilation can be told from the earlier ones.

## Main Definitions

* `Emission.after` — an emission with earlier messages in its report
* `Unheeding` — a computation that does not look at the report

## Main Statements

* `Composed.unheeding` — whatever is composed of the steps does not look at the report
* `compile_unheeding` — nor does a compilation
-/

namespace TransferRules.Compile

variable {ctx : Lexicons} {α β : Type}

/-- The emission with some messages in front of those of its report. -/
def Emission.after (e : Emission) (earlier : List ReportEntry) : Emission :=
  { e with report := ⟨earlier ++ e.report.entries⟩ }

/-- A computation does not look at the report: earlier messages stay in front, and all else is as
it is without them. -/
def Unheeding (m : Emit α) : Prop :=
  ∀ earlier e, m (e.after earlier) = ((m e).1, (m e).2.after earlier)

/-! ## Closure -/

namespace Unheeding

variable {m : Emit α} {f : α → Emit β}

theorem pure (a : α) : Unheeding (Pure.pure a : Emit α) := fun _ _ => rfl

theorem bind (hm : Unheeding m) (hf : ∀ a, Unheeding (f a)) : Unheeding (m >>= f) := by
  intro earlier e
  show f (m (e.after earlier)).1 (m (e.after earlier)).2 = _
  rw [hm earlier e]
  exact hf (m e).1 earlier (m e).2

theorem mapM {f : α → Emit β} (hf : ∀ a, Unheeding (f a)) (l : List α) :
    Unheeding (l.mapM f) := by
  induction l with
  | nil => exact pure []
  | cons a l ih =>
      rw [List.mapM_cons]
      exact (hf a).bind fun b => ih.bind fun bs => pure (b :: bs)

theorem tryWorkspace (f : Workspace → Except Issue (α × Workspace)) :
    Unheeding (Compile.tryWorkspace f) := by
  intro earlier e
  rw [tryWorkspace_apply, tryWorkspace_apply,
    show (e.after earlier).workspace = e.workspace from rfl]
  cases f e.workspace with
  | ok result => rfl
  | error issue => rfl

theorem report (issue : Issue) : Unheeding (Compile.report issue) := by
  intro earlier e
  have hentries : earlier ++ e.report.entries ++ [⟨issue.severity, issue.message⟩] =
      earlier ++ (e.report.entries ++ [⟨issue.severity, issue.message⟩]) :=
    List.append_assoc _ _ _
  exact congrArg (fun entries => ((), { e with report := ⟨entries⟩ })) hentries

theorem claimExactly (name : String) : Unheeding (Compile.claimExactly name) := by
  intro earlier e
  rw [claimExactly_apply, claimExactly_apply, show (e.after earlier).claimed = e.claimed from rfl]
  split
  · rfl
  · rfl

theorem callMacro (demand : MacroDemand) {prepare : Emit (Except Issue Unit)}
    (hprepare : Unheeding prepare) (position : Nat) (target : String) :
    Unheeding (Compile.callMacro ctx demand prepare position target) := by
  refine (tryWorkspace _).bind fun asked => ?_
  cases asked with
  | error issue => exact pure _
  | ok handle =>
      refine hprepare.bind fun prepared => ?_
      cases prepared with
      | error issue => exact pure _
      | ok _ => exact fun _ _ => rfl

/-- Messages are only added. -/
theorem prefix_report (h : Unheeding m) (e : Emission) :
    e.report.entries <+: (m e).2.report.entries := by
  have hrun := h e.report.entries { e with report := ⟨[]⟩ }
  have hafter : ({ e with report := ⟨[]⟩ } : Emission).after e.report.entries = e := by
    rw [Emission.after, List.append_nil]
  rw [hafter] at hrun
  rw [hrun]
  exact List.prefix_append _ _

end Unheeding

/-! ## Compilations -/

/-- **No step looks at the report**, so nothing does that is composed of them. -/
theorem Composed.unheeding {calls : List (MacroDemand × Nat)} {m : Emit α}
    (h : Composed ctx calls m) : Unheeding m := by
  induction h with
  | pure a => exact .pure a
  | bind _ _ ihm ihf => exact ihm.bind ihf
  | gather f => exact fun _ _ => rfl
  | step s => exact fun _ _ => rfl
  | report issue => exact .report issue
  | claim base position => exact fun _ _ => rfl
  | claimExactly name => exact .claimExactly name
  | part x q => exact .tryWorkspace _
  | var name => exact fun _ _ => rfl
  | gramCat categories => exact fun _ _ => rfl
  | call demand _ position target ih => exact .callMacro demand ih position target

theorem emitPattern_unheeding (words : List SourceWord) : Unheeding (emitPattern ctx words) :=
  .mapM (fun _ _ _ => rfl) words

/-- **A compilation does not look at the report.** -/
theorem compile_unheeding (rule : Rule) (r : Resolution) : Unheeding (compile ctx rule r) := by
  obtain ⟨rest, heq, hrest⟩ := compile_eq ctx rule r
  rw [heq]
  exact (emitPattern_unheeding rule.source).bind fun pattern =>
    (hrest pattern).1.unheeding

end TransferRules.Compile
