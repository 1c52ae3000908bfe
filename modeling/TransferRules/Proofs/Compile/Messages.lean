import TransferRules.Proofs.Compile.AffixGloss
import TransferRules.Proofs.Compile.CoFeature
import TransferRules.Proofs.Compile.LemmaAgreement
import TransferRules.Proofs.Compile.Repetition

/-!
# What a compilation reports

The first messages of a compilation are about the features of the head word that are ignored.  From
then on it has nothing to say about the rule itself: whatever else is reported is something that a
lexicon lacks, a feature without values or a value without a form.  These are errors, while a
feature that is ignored only calls for a warning.

## Main Definitions

* `Issue.IsLack` — the issues about what a lexicon lacks
* `ReportsLacks` — a computation that reports nothing else

## Main Statements

* `provide_reportsLacks`, `emitTable_reportsLacks` — the functions that report something
* `compile_reports` — what a compilation reports
-/

namespace TransferRules

open TransferRules.Action

/-- An issue about something that a lexicon lacks. -/
inductive Issue.IsLack : Issue → Prop
  | feature (category label : String) : IsLack (.unresolvedFeature category label)
  | form (category label value : String) : IsLack (.unresolvedFeatureValue category label value)

/-- What a lexicon lacks is an error. -/
theorem Issue.IsLack.severity {issue : Issue} (h : issue.IsLack) : issue.severity = .error := by
  cases h with
  | feature category label => rfl
  | form category label value => rfl

theorem Report.noteAll_append (r : Report) (issues issues' : List Issue) :
    r.noteAll (issues ++ issues') = (r.noteAll issues).noteAll issues' :=
  List.foldl_append

namespace Compile

variable {ctx : Lexicons} {α β : Type}

/-- A computation reports nothing but what a lexicon lacks. -/
def ReportsLacks (m : Emit α) : Prop :=
  ∀ e, ∃ issues, (∀ issue ∈ issues, issue.IsLack) ∧ (m e).2.report = e.report.noteAll issues

/-! ## Closure -/

namespace ReportsLacks

variable {m : Emit α} {f : α → Emit β}

/-- What leaves the report alone reports nothing. -/
theorem of_silent (h : ∀ e, (m e).2.report = e.report) : ReportsLacks m :=
  fun e => ⟨[], nofun, h e⟩

theorem pure (a : α) : ReportsLacks (Pure.pure a : Emit α) := .of_silent fun _ => rfl

/-- The second part may depend on what the first one has answered. -/
theorem bind (hm : ReportsLacks m) (hf : ∀ e, ReportsLacks (f (m e).1)) :
    ReportsLacks (m >>= f) := by
  intro e
  obtain ⟨first, hfirst, hreport⟩ := hm e
  obtain ⟨second, hsecond, hreport'⟩ := hf e (m e).2
  refine ⟨first ++ second, fun issue hissue => ?_, ?_⟩
  · exact (List.mem_append.1 hissue).elim (hfirst issue) (hsecond issue)
  · rw [bind_apply, hreport', hreport, Report.noteAll_append]

theorem mapM (hf : ∀ a, ReportsLacks (f a)) (l : List α) : ReportsLacks (l.mapM f) := by
  induction l with
  | nil => exact pure []
  | cons a l ih =>
      rw [List.mapM_cons]
      exact (hf a).bind fun _ => ih.bind fun _ => pure _

theorem foldlM {f : β → α → Emit β} (hf : ∀ b a, ReportsLacks (f b a)) (l : List α) (b : β) :
    ReportsLacks (l.foldlM f b) := by
  induction l generalizing b with
  | nil => exact pure b
  | cons a l ih =>
      rw [List.foldlM_cons]
      exact (hf b a).bind fun _ => ih _

theorem report {issue : Issue} (h : issue.IsLack) : ReportsLacks (report issue) :=
  fun _ => ⟨[issue], fun _ hmem => List.mem_singleton.1 hmem ▸ h, rfl⟩

/-- A request to the workspace is answered without a message, also if it is refused. -/
theorem tryWorkspace (f : Workspace → Except Issue (α × Workspace)) :
    ReportsLacks (tryWorkspace f) := by
  refine .of_silent fun e => ?_
  rw [tryWorkspace_apply]
  split
  · rfl
  · rfl

end ReportsLacks

/-! ## Bindings -/

theorem readSource_reportsLacks (position : Nat) (category label target : String)
    (affixFirst : Bool) :
    ReportsLacks (readSource ctx position category label target affixFirst) := by
  unfold readSource
  refine (ReportsLacks.tryWorkspace _).bind fun e => ?_
  split
  · exact .of_silent fun _ => rfl
  · refine (ReportsLacks.tryWorkspace _).bind fun e => ?_
    split
    · exact .of_silent fun _ => rfl
    · exact .pure _

theorem prepareCoFeature_reportsLacks (set : DisjointSet) (bindings : Bindings)
    (o : Occurrence) : ReportsLacks (prepareCoFeature ctx set bindings o) := by
  unfold prepareCoFeature
  split
  · exact .of_silent fun _ => rfl
  · exact readSource_reportsLacks _ _ _ _ _

theorem callMacro_reportsLacks (demand : MacroDemand) {prepare : Emit (Except Issue Unit)}
    (hprepare : ReportsLacks prepare) (position : Nat) (target : String) :
    ReportsLacks (callMacro ctx demand prepare position target) := by
  unfold callMacro
  refine (ReportsLacks.tryWorkspace _).bind fun e => ?_
  split
  · exact .pure _
  · refine hprepare.bind fun e => ?_
    split
    · exact .pure _
    · exact .of_silent fun _ => rfl

theorem provide_reportsLacks (bindings : Bindings) (o : Occurrence) (target : String) :
    ReportsLacks (provide ctx bindings o target) := by
  unfold provide
  cases o.site with
  | source => exact readSource_reportsLacks _ _ _ _ _
  | affix _ => exact readSource_reportsLacks _ _ _ _ _
  | word =>
      cases disjointSetOf? ctx o with
      | some set =>
          show ReportsLacks (callDisjointMacro ctx set bindings o target)
          rw [callDisjointMacro_eq]
          exact callMacro_reportsLacks _ (prepareCoFeature_reportsLacks set bindings o) _ _
      | none =>
          show ReportsLacks (callLemmaMacro ctx o target)
          rw [callLemmaMacro_eq]
          exact callMacro_reportsLacks _ (.pure _) _ _

/-- A provider that fails lacks a feature, and this is reported. -/
theorem bindLabel_reportsLacks (occurrences : List Occurrence) (bindings : Bindings)
    (p : Provider) : ReportsLacks (bindLabel ctx occurrences bindings p) := by
  have hclaim : ∀ base position, ReportsLacks (claim base position) :=
    fun _ _ => .of_silent fun _ => rfl
  unfold bindLabel
  split
  · refine (hclaim _ _).bind fun e => (provide_reportsLacks bindings _ _).bind fun e' => ?_
    split
    · exact .of_silent fun _ => rfl
    · next issue hissue =>
      obtain ⟨category, label, rfl⟩ := provide_failsUnresolved _ _ _ _ issue hissue
      exact (ReportsLacks.report (.feature category label)).bind fun _ => .pure _
  · exact .pure bindings

theorem bindLabels_reportsLacks (r : Resolution) : ReportsLacks (bindLabels ctx r) :=
  .foldlM (bindLabel_reportsLacks r.occurrences) _ _

/-! ## Affixes, lemmas and words -/

/-- A table reports the features without forms, and what is missing if it has no row. -/
theorem emitTable_reportsLacks (bindings : Bindings) (position : Nat) (category : String)
    (forms : String → List Exponent) (occurrences : List Occurrence) (base : List Usable → String)
    (rows : List Usable → List (List String × Value)) (other : Value)
    {missing? : List Usable → Option Issue} (hmissing : ∀ us, ∀ issue ∈ missing? us, issue.IsLack) :
    ReportsLacks
      (emitTable bindings position category forms occurrences base rows other missing?) := by
  intro e
  have hunlisted : ∀ issue ∈ unlistedFeatures category forms occurrences, issue.IsLack := by
    intro issue hissue
    obtain ⟨o, -, rfl⟩ := List.mem_map.1 hissue
    exact .feature category o.feature.label
  obtain ⟨-, hempty, hfull, -⟩ := @emitTable_spec bindings forms e position category occurrences
    base rows other missing?
  let us := (comparisons bindings forms occurrences).map (Comparison.usable forms)
  by_cases hrows : rows us = []
  · refine ⟨_ ++ _, fun issue hissue => ?_,
      (hempty hrows).trans (Report.noteAll_append _ _ _).symm⟩
    refine (List.mem_append.1 hissue).elim (hunlisted issue) fun hissue => ?_
    exact hmissing us issue (Option.mem_toList.1 hissue)
  · exact ⟨_, hunlisted, hfull hrows⟩

theorem emitAffix_reportsLacks (bindings : Bindings) (position : Nat) (category : String)
    (occurrences : List Occurrence) :
    ReportsLacks (emitAffix ctx bindings position category occurrences) := by
  rw [emitAffix_eq]
  refine emitTable_reportsLacks _ _ _ _ _ _ _ _ fun us issue hissue => ?_
  unfold missingGloss? at hissue
  split at hissue
  · cases hissue
  · cases hissue
    exact .form _ _ _

theorem emitLemma_reportsLacks (bindings : Bindings) (position : Nat) (category : String)
    (occurrences : List Occurrence) :
    ReportsLacks (emitLemma ctx bindings position category occurrences) := by
  rw [emitLemma_eq]
  refine emitTable_reportsLacks _ _ _ _ _ _ _ _ fun us issue hissue => ?_
  unfold missingLemma? at hissue
  split at hissue
  · cases hissue
  · split at hissue
    · cases hissue
      exact .form _ _ _
    · cases hissue

theorem emitWord_reportsLacks (bindings : Bindings) (rule : Rule) (r : Resolution)
    (w : TargetWord) (index position : Nat) :
    ReportsLacks (emitWord ctx bindings rule r w index position) := by
  have haffixes : ∀ affixes, ReportsLacks
      (emitAffixes ctx bindings r index position (rule.targetCategory w) affixes) := by
    intro affixes
    refine (ReportsLacks.mapM (fun affix => ?_) affixes).bind fun _ => .pure _
    exact (emitAffix_reportsLacks bindings position _ _).bind fun _ => .pure _
  unfold emitWord
  dsimp only
  split
  · exact (ReportsLacks.pure none).bind fun _ => (haffixes _).bind fun _ => .pure _
  · exact (emitLemma_reportsLacks bindings position _ _).bind fun _ =>
      (haffixes _).bind fun _ => .pure _

theorem emitOutput_reportsLacks (bindings : Bindings) (rule : Rule) (r : Resolution)
    (words : List (TargetWord × Nat)) :
    ReportsLacks (emitOutput ctx bindings rule r words) := by
  induction words with
  | nil => exact .pure []
  | cons word rest ih =>
      obtain ⟨w, index⟩ := word
      unfold emitOutput
      split
      · exact ih
      · next position _ =>
        exact (emitWord_reportsLacks bindings rule r w index position).bind fun _ =>
          ih.bind fun _ => .pure _

/-! ## Rules -/

theorem report_forM_report (issues : List Issue) (e : Emission) :
    (issues.forM report e).2.report = e.report.noteAll issues := by
  induction issues generalizing e with
  | nil => rfl
  | cons issue issues ih => exact ih _

/-- **What a compilation reports**: the features of the head word that are ignored, and then what
the lexicons lack. -/
theorem compile_reports (rule : Rule) (r : Resolution) (e : Emission) :
    ∃ lacks, (∀ issue ∈ lacks, issue.IsLack) ∧
      (compile ctx rule r e).2.report =
        e.report.noteAll (ignoredFeatures rule.name r ++ lacks) := by
  -- the pattern is silent, and after the ignored features only lacks are reported
  obtain ⟨workspace, hpattern⟩ := exists_emitPattern ctx rule.source e
  let noted := ((ignoredFeatures rule.name r).forM report (emitPattern ctx rule.source e).2).2
  have hnoted : noted.report = e.report.noteAll (ignoredFeatures rule.name r) := by
    rw [report_forM_report, hpattern]
  obtain ⟨unbound, hunbound, hbound⟩ := @bindLabels_reportsLacks ctx r noted
  obtain ⟨missing, hmissing, houtput⟩ := @emitOutput_reportsLacks ctx
    (bindLabels ctx r noted).1 rule r rule.target.zipIdx (bindLabels ctx r noted).2
  refine ⟨unbound ++ missing, fun issue hissue => ?_, ?_⟩
  · exact (List.mem_append.1 hissue).elim (hunbound issue) (hmissing issue)
  · rw [compile_eq_open, bind_apply, report_closeRule, Report.noteAll_append,
      Report.noteAll_append, ← hnoted, ← hbound]
    exact houtput

end Compile

end TransferRules
