import TransferRules.Proofs.Action.Execution
import TransferRules.Proofs.Compile.Emitting
import TransferRules.Proofs.Compile.Repetition
import TransferRules.Proofs.Workspace.GramCat

/-!
# Which rules ask for categories

Only the last step of a compilation asks for grammatical categories, and only if the output of the
rule takes the category from some word.  Then it asks for all that the output may find there: the
categories of both languages, and those that the rule itself names.  So whether a rule asked can be
seen from its output.

## Main Definitions

* `OutputReads` — the output of a written rule takes a part from some word
* `categoriesFor` — the categories for which a compilation asks
* `Quiet` — a computation that asks for none

## Main Statements

* `compile_enlarges` — a compilation asks for the categories of the rule, and for no others
* `outputReads_gramCat` — if the output reads the category, the compilation asked
-/

namespace TransferRules.Compile

open TransferRules.Action
open TransferRules.Markup
open TransferRules.Ordered
open TransferRules.Transfer

variable {ctx : Lexicons} {e e' : Emission} {α β : Type}

/-- The output of a rule takes a part from some word. -/
def OutputReads (rule : Element) (part : String) : Prop :=
  ∃ action ∈ rule.childrenNamed "action", ∃ out ∈ action.childrenNamed "out",
    ⟨.attributes, part⟩ ∈ references out

/-- The categories for which a compilation asks. -/
def categoriesFor (ctx : Lexicons) (rule : Rule) : List StringSet :=
  if needsGramCat rule then [ruleCategories ctx rule] else []

/-! ## Computations that ask for no categories -/

/-- A computation that asks for no categories, when it starts with a coherent workspace. -/
def Quiet (m : Emit α) : Prop :=
  ∀ e, e.workspace.Coherent →
    (m e).2.workspace.Coherent ∧ e.workspace.Enlarges [] (m e).2.workspace

namespace Quiet

variable {m : Emit α} {f : α → Emit β}

/-- What does not touch the workspace asks for nothing. -/
theorem of_workspace (h : ∀ e, (m e).2.workspace = e.workspace) : Quiet m := by
  intro e he
  rw [h e]
  exact ⟨he, .refl _⟩

theorem pure (a : α) : Quiet (Pure.pure a : Emit α) := .of_workspace fun _ => rfl

theorem bind (hm : Quiet m) (hf : ∀ a, Quiet (f a)) : Quiet (m >>= f) := by
  intro e he
  obtain ⟨hcoherent, hfirst⟩ := hm e he
  obtain ⟨hafter, hrest⟩ := hf (m e).1 (m e).2 hcoherent
  exact ⟨hafter, hfirst.trans hrest⟩

theorem forM {f : α → Emit PUnit} (hf : ∀ a, Quiet (f a)) (l : List α) : Quiet (l.forM f) := by
  induction l with
  | nil => exact .pure _
  | cons a l ih => exact (hf a).bind fun _ => ih

theorem mapM (hf : ∀ a, Quiet (f a)) (l : List α) : Quiet (l.mapM f) := by
  induction l with
  | nil => exact .pure []
  | cons a l ih =>
      rw [List.mapM_cons]
      exact (hf a).bind fun b => ih.bind fun bs => .pure (b :: bs)

theorem foldlM {f : β → α → Emit β} (hf : ∀ b a, Quiet (f b a)) (l : List α) (b : β) :
    Quiet (l.foldlM f b) := by
  induction l generalizing b with
  | nil => exact .pure b
  | cons a l ih =>
      rw [List.foldlM_cons]
      exact (hf b a).bind ih

theorem emit (s : Statement) : Quiet (emit s) := .of_workspace fun _ => rfl

theorem report (issue : Issue) : Quiet (report issue) := .of_workspace fun _ => rfl

theorem claim (base : String) (position : Nat) : Quiet (claim base position) :=
  .of_workspace fun _ => rfl

theorem claimExactly (name : String) : Quiet (claimExactly name) := by
  refine .of_workspace fun e => ?_
  rw [claimExactly_apply]
  split
  · rfl
  · rfl

/-- A request that may be refused asks for nothing if it does not when it is granted. -/
theorem tryWorkspace {f : Workspace → Except Issue (α × Workspace)}
    (h : ∀ w a w', w.Coherent → f w = .ok (a, w') → w.Grows w' ∧ w.Enlarges [] w') :
    Quiet (tryWorkspace f) := by
  intro e he
  rw [tryWorkspace_apply]
  cases hf : f e.workspace with
  | ok result =>
      obtain ⟨hgrows, henlarges⟩ := h _ _ _ he hf
      exact ⟨he.grows hgrows, henlarges⟩
  | error issue => exact ⟨he, .refl _⟩

theorem ensureAttribute (x : Lexicon) (q : FeatureQuery) :
    Quiet (Compile.tryWorkspace fun w => w.ensureAttribute x q) :=
  .tryWorkspace fun _ _ _ hw h => ⟨(hw.ensureAttribute_grows h).1, hw.enlarges_ensureAttribute h⟩

theorem defineVariable (name : String) : Quiet (defineVariable name) := fun e he =>
  ⟨he.grows (e.workspace.ensureVariable_grows name none).1,
    Workspace.enlarges_ensureVariable name none⟩

end Quiet

theorem Local.quiet {m : Emit α} (h : Local m) : Quiet m := by
  induction h with
  | pure a => exact .pure a
  | bind _ _ ihm ihf => exact ihm.bind ihf
  | step s => exact .emit _
  | report issue => exact .report issue
  | claim base position => exact .claim base position
  | claimExactly name => exact .claimExactly name
  | var name => exact .defineVariable name

/-! ## Bindings -/

theorem emitPattern_quiet (words : List SourceWord) : Quiet (emitPattern ctx words) :=
  .mapM (fun w e he => ⟨he.grows (e.workspace.ensureCategory_grows _ _ _).1,
    Workspace.enlarges_ensureCategory w.categoryName w.fixedValues⟩) words

theorem readSource_quiet (position : Nat) (category label target : String) (affixFirst : Bool) :
    Quiet (readSource ctx position category label target affixFirst) := by
  unfold readSource
  refine (Quiet.ensureAttribute _ _).bind fun first => ?_
  cases first with
  | ok part => exact (Quiet.emit _).bind fun _ => .pure _
  | error _ =>
      refine (Quiet.ensureAttribute _ _).bind fun second => ?_
      cases second with
      | ok part => exact (Quiet.emit _).bind fun _ => .pure _
      | error _ => exact .pure _

theorem prepareCoFeature_quiet (set : DisjointSet) (bindings : Bindings) (o : Occurrence) :
    Quiet (prepareCoFeature ctx set bindings o) := by
  unfold prepareCoFeature
  split
  · exact (Quiet.emit _).bind fun _ => .pure _
  · exact readSource_quiet _ _ _ _ _

theorem callMacro_quiet (demand : MacroDemand) {prepare : Emit (Except Issue Unit)}
    (hprepare : Quiet prepare) (position : Nat) (target : String) :
    Quiet (callMacro ctx demand prepare position target) := by
  unfold callMacro
  refine Quiet.bind (.tryWorkspace fun w handle w' hw h => ?_) fun answer => ?_
  · cases demand with
    | lemmaMacro category label =>
        exact ⟨Workspace.ensureLemmaMacro_grows h, Workspace.enlarges_ensureLemmaMacro h⟩
    | disjointMacro set =>
        exact ⟨Workspace.ensureDisjointMacro_grows h, Workspace.enlarges_ensureDisjointMacro h⟩
  · cases answer with
    | error issue => exact .pure _
    | ok handle =>
        refine hprepare.bind fun prepared => ?_
        cases prepared with
        | error issue => exact .pure _
        | ok _ => exact (Quiet.emit _).bind fun _ => (Quiet.emit _).bind fun _ => .pure _

theorem provide_quiet (bindings : Bindings) (o : Occurrence) (target : String) :
    Quiet (provide ctx bindings o target) := by
  unfold provide
  cases o.site with
  | source => exact readSource_quiet _ _ _ _ _
  | affix _ => exact readSource_quiet _ _ _ _ _
  | word =>
      cases disjointSetOf? ctx o with
      | some set =>
          show Quiet (callDisjointMacro ctx set bindings o target)
          rw [callDisjointMacro_eq]
          exact callMacro_quiet _ (prepareCoFeature_quiet set bindings o) _ _
      | none =>
          show Quiet (callLemmaMacro ctx o target)
          rw [callLemmaMacro_eq]
          exact callMacro_quiet _ (.pure _) _ _

theorem bindLabel_quiet (occurrences : List Occurrence) (bindings : Bindings) (p : Provider) :
    Quiet (bindLabel ctx occurrences bindings p) := by
  unfold bindLabel
  split
  · refine (Quiet.claim _ _).bind fun name => ?_
    refine (provide_quiet bindings p.occurrence name).bind fun result => ?_
    cases result with
    | ok _ => exact (Quiet.defineVariable name).bind fun _ => .pure _
    | error issue => exact (Quiet.report issue).bind fun _ => .pure _
  · exact .pure bindings

/-! ## Rules -/

/-- The first part of a compilation asks for no categories. -/
theorem openRule_quiet (rule : Rule) (r : Resolution) : Quiet (openRule ctx rule r) := by
  unfold openRule
  refine (emitPattern_quiet rule.source).bind fun pattern => ?_
  refine (Quiet.forM .report _).bind fun _ => ?_
  exact (Quiet.foldlM (bindLabel_quiet r.occurrences) _ _).bind fun _ => .pure _

/-- **A compilation asks for the categories of the rule** if the output needs them, and for no
others. -/
theorem compile_enlarges (he : e.workspace.Coherent) (rule : Rule) (r : Resolution) :
    e.workspace.Enlarges (categoriesFor ctx rule) (compile ctx rule r e).2.workspace := by
  have hopens : Quiet (openRule ctx rule r) := openRule_quiet rule r
  obtain ⟨hcoherent, hopened⟩ := hopens e he
  rw [compile_eq_open, bind_apply, workspace_closeRule]
  generalize openRule ctx rule r e = opened at hcoherent hopened ⊢
  have hemits : Local (emitOutput ctx opened.1.2 rule r rule.target.zipIdx) :=
    emitOutput_local _ _ _ _
  obtain ⟨-, houtput⟩ := hemits.quiet opened.2 hcoherent
  unfold categoriesFor
  split
  · exact (hopened.trans houtput).quiet_trans (Workspace.enlarges_ensureGramCat _ _)
  · exact hopened.trans houtput

/-- An output that takes the category from some word needs the categories. -/
theorem needsGramCat_of_compile (he : Settled ctx e) (rule : Rule) (r : Resolution) :
    ∀ entry ∈ (compile ctx rule r e).1.output,
      ⟨.attributes, gramCatName⟩ ∈ entry.2.references → needsGramCat rule = true := by
  suffices hleads : Leads ctx e (compile ctx rule r) fun compiled _ =>
      ∀ entry ∈ compiled.output,
        ⟨.attributes, gramCatName⟩ ∈ entry.2.references → needsGramCat rule = true from hleads.2
  unfold compile
  refine (emitPattern_leads he rule.source).bind fun pattern e₁ _ hpattern => ?_
  refine (Leads.forM hpattern.1 _ fun issue e' he' => ?_).bind fun _ e₂ _ he₂ => ?_
  · have hnote : Move ctx e' _ := .note e' issue
    exact ⟨.single hnote, he'.of_eq (.single hnote) rfl⟩
  refine (bindLabels_leads he₂ r).bind fun bindings e₃ _ hbindings => ?_
  refine (emitOutput_leads hbindings.1 hbindings.2 rule r fun word hword => ?_).bind
    fun output e₄ _ houtput => ?_
  · exact (List.mem_zipIdx' hword).2 ▸ List.getElem_mem _
  have hreads : ∀ entry ∈ output,
      ⟨.attributes, gramCatName⟩ ∈ entry.2.references → needsGramCat rule = true := by
    intro entry hentry href
    rcases houtput.2 entry hentry _ href with ⟨name, -, heq⟩ | ⟨hneeds, -⟩
    · cases heq
    · exact hneeds
  split
  · exact .step rfl (.ask (.needGramCat _ (ruleCategories ctx rule))) ⟨.refl, hreads⟩
  · exact ⟨.refl, hreads⟩

/-- What is written of a rule has its output in one place. -/
theorem outputReads_compiledRule {compiled : CompiledRule} {name part : String}
    (h : OutputReads (compiled.toElement name) part) :
    ∃ entry ∈ compiled.output, ⟨.attributes, part⟩ ∈ entry.2.references := by
  obtain ⟨action, haction, out, hout, href⟩ := h
  have hactions : (compiled.toElement name).childrenNamed "action" =
      [Written.element "action" [] (compiled.statements.map Statement.toElement ++
        [Written.element "out" [] (CompiledRule.outputElements compiled.output)])] := by
    unfold Element.childrenNamed Element.elements CompiledRule.toElement Written.element
    rw [elements_map_toNode]
    rfl
  rw [hactions, List.mem_singleton] at haction
  subst haction
  -- No statement is written as an output.
  have hstatements : ∀ s ∈ compiled.statements.map Statement.toElement,
      ¬ (s.name == "out") = true := by
    intro s hs
    obtain ⟨statement, -, rfl⟩ := List.mem_map.1 hs
    rcases statement with (_ | _) | _
    · exact (by decide : ¬ ("let" == "out") = true)
    · exact (by decide : ¬ ("choose" == "out") = true)
    · exact (by decide : ¬ ("call-macro" == "out") = true)
  have houts : (Written.element "action" [] (compiled.statements.map Statement.toElement ++
      [Written.element "out" [] (CompiledRule.outputElements compiled.output)])).childrenNamed
        "out" = [Written.element "out" [] (CompiledRule.outputElements compiled.output)] := by
    unfold Element.childrenNamed Element.elements
    rw [Written.element, elements_map_toNode, List.filter_append,
      List.filter_eq_nil_iff.2 hstatements]
    rfl
  rw [houts, List.mem_singleton] at hout
  subst hout
  rw [references_group _ rfl, references_outputElements] at href
  exact List.mem_flatMap.1 href

/-- **If the output of a compiled rule reads the category**, the compilation asked for the
categories of the rule. -/
theorem outputReads_gramCat (he : Settled ctx e) {rule : Rule} {r : Resolution} {name : String}
    (h : OutputReads ((compile ctx rule r e).1.toElement name) gramCatName) :
    ruleCategories ctx rule ∈ categoriesFor ctx rule := by
  obtain ⟨entry, hentry, href⟩ := outputReads_compiledRule h
  rw [categoriesFor, if_pos (needsGramCat_of_compile he rule r entry hentry href)]
  exact List.mem_singleton_self _

end TransferRules.Compile
