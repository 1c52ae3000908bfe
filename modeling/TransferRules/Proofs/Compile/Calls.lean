import Mathlib.Data.List.Forall2
import TransferRules.Proofs.Compile.Blocks

/-!
# The calls of a compilation

In a faithful workspace a compilation is answered rightly: under the names of the pattern stand the
categories of the source words, and under the name of every macro that is called stands the macro
that the provider asked for.  A call is told to be that of a provider by the block of statements in
which it stands: its answer goes to the variable that the label of the provider has claimed.

## Main Definitions

* `ServedBlock` — the statements for a label, with a call that is answered rightly
* `RuleServed` — a compiled rule refers to what was asked for
* `Serves` — what a part of a compilation does to a faithful workspace

## Main Statements

* `Composed.serving` — whatever is composed of the steps keeps a workspace faithful
* `Binds.serves` — the labels are bound by blocks with calls that are answered rightly
* `compile_serves` — a compilation as a whole
-/

namespace TransferRules.Compile

open TransferRules.Action
open TransferRules.Transfer

/-- Only calls refer to macros: values do not. -/
theorem macros_notMem_references_value (v : Value) (name : String) :
    ⟨.macros, name⟩ ∉ v.references := by
  cases v with
  | clip position side part => simp [Value.references]
  | _ => simp [Value.references]

/-- Nor do steps. -/
theorem macros_notMem_references_step (s : Step) (name : String) :
    ⟨.macros, name⟩ ∉ s.references := by
  have htest : ∀ t : Test, ⟨.macros, name⟩ ∉ t.references := by
    simp [Test.references, Equation.references, macros_notMem_references_value]
  have hassignment : ∀ a : Assignment, ⟨.macros, name⟩ ∉ a.references := by
    simp [Assignment.references, macros_notMem_references_value]
  cases s with
  | assign a => exact hassignment a
  | choose c => simp [Step.references, Choice.references, htest, hassignment]

/-- The macros that a rule calls are those that its statements call. -/
theorem mem_references_compiledRule_iff {compiled : CompiledRule} {ruleName name : String} :
    ⟨.macros, name⟩ ∈ references (compiled.toElement ruleName) ↔
      ∃ position, .call name position ∈ compiled.statements := by
  have hstatement : ∀ statement : Statement, ⟨.macros, name⟩ ∈ statement.references ↔
      ∃ position, statement = .call name position := by
    intro statement
    cases statement with
    | step s => simpa [Statement.references] using macros_notMem_references_step s name
    | call called position => simp [Statement.references, eq_comm]
  have houtput : ∀ w : OutputWord, ⟨.macros, name⟩ ∉ w.references := by
    simp [OutputWord.references, macros_notMem_references_value]
  rw [references_compiledRule]
  simp only [CompiledRule.references, List.mem_append, List.mem_map, List.mem_flatMap, hstatement,
    houtput]
  constructor
  · rintro (⟨_, -, hpattern⟩ | ⟨statement, hmem, position, rfl⟩ | ⟨_, _, h⟩)
    · cases hpattern
    · exact ⟨position, hmem⟩
    · cases h
  · rintro ⟨position, hmem⟩
    exact .inr (.inl ⟨_, hmem, position, rfl⟩)

/-- The statements for a label that is bound.  There are some steps, and if the provider of the
label asks for a macro, a call for its word follows, whose answer goes to the variable of the label;
and the macro that was asked for stands under the name that is called. -/
inductive ServedBlock (ctx : Lexicons) (t : TransferDocument) (b : BoundLabel) :
    List Statement → Prop where
  | read (steps : List Step) (hnone : macroDemand? ctx b.occurrence = none) :
      ServedBlock ctx t b (steps.map .step)
  | call (steps : List Step) {demand : MacroDemand} {name : String} (result : String)
      (hdemand : macroDemand? ctx b.occurrence = some demand)
      (hstands : demand.StandsUnder ctx.target t name) :
      ServedBlock ctx t b
        (steps.map .step ++ [.call name b.occurrence.position, .assign b.name (.var result)])

/-- A compiled rule refers to what was asked for: its pattern names the categories of the source
words, and its statements consist of blocks for the labels that are bound, in the order of their
providers, and then of steps for the output. -/
structure RuleServed (ctx : Lexicons) (t : TransferDocument) (rule : Rule) (r : Resolution)
    (compiled : CompiledRule) : Prop where
  pattern : compiled.pattern = rule.source.map SourceWord.patternName
  categories : ∀ w ∈ rule.source,
    t.definition? .categories w.patternName = some (categoryFor ctx.source w)
  blocks : ∃ bound blocks, ∃ steps : List Step,
    bound.Sublist (labelsFor r.occurrences (bindingOrder ctx r.providers) []) ∧
      compiled.statements = blocks.flatten ++ steps.map .step ∧
      List.Forall₂ (ServedBlock ctx t) bound blocks

variable {source target : Lexicon} {asked : Asked} {ctx : Lexicons} {t t' : TransferDocument}
  {e e' e'' : Emission} {b : BoundLabel} {block : List Statement}
  {calls calls' : List (MacroDemand × Nat)} {α β : Type}

/-- What stays in its place serves a label still. -/
theorem ServedBlock.mono (h : ServedBlock ctx t b block)
    (hmacros : ∀ name position, .call name position ∈ block → ∀ m,
      t.definition? .macros name = some m → t'.definition? .macros name = some m) :
    ServedBlock ctx t' b block := by
  cases h with
  | read steps hnone => exact .read steps hnone
  | call steps result hdemand hstands =>
      exact .call steps result hdemand
        (hmacros _ _ (List.mem_append_right _ List.mem_cons_self) _ hstands)

/-- What is called in a block was asked for by the provider of the label. -/
theorem ServedBlock.standsUnder (h : ServedBlock ctx t b block) {name : String} {position : Nat}
    (hcall : .call name position ∈ block) :
    ∃ demand, macroDemand? ctx b.occurrence = some demand ∧
      demand.StandsUnder ctx.target t name := by
  cases h with
  | read steps _ => simp at hcall
  | call steps result hdemand hstands =>
      simp only [List.mem_append, List.mem_map, reduceCtorEq, and_false, exists_false,
        List.mem_cons, Statement.call.injEq, Statement.assign, List.not_mem_nil, or_false,
        false_or] at hcall
      obtain ⟨rfl, -⟩ := hcall
      exact ⟨_, hdemand, hstands⟩

/-- And a rule. -/
theorem RuleServed.mono {rule : Rule} {r : Resolution} {compiled : CompiledRule}
    (h : RuleServed ctx t rule r compiled)
    (hcategories : ∀ name e, t.definition? .categories name = some e →
      t'.definition? .categories name = some e)
    (hmacros : ∀ name position, .call name position ∈ compiled.statements → ∀ e,
      t.definition? .macros name = some e → t'.definition? .macros name = some e) :
    RuleServed ctx t' rule r compiled where
  pattern := h.pattern
  categories w hw := hcategories _ _ (h.categories w hw)
  blocks := by
    obtain ⟨bound, blocks, steps, hbound, hstatements, hserved⟩ := h.blocks
    refine ⟨bound, blocks, steps, hbound, hstatements, ?_⟩
    rw [List.forall₂_iff_zip] at hserved ⊢
    refine ⟨hserved.1, fun {b block} hmem => ?_⟩
    refine (hserved.2 hmem).mono fun name position hcall => hmacros name position ?_
    rw [hstatements]
    exact List.mem_append_left _ (List.mem_flatten.2 ⟨block, (List.of_mem_zip hmem).2, hcall⟩)

/-! ## Faithful workspaces -/

/-- What a part of a compilation does to a faithful workspace: it lets it grow and keeps it
faithful. -/
structure Serves (source target : Lexicon) (asked : Asked) (e e' : Emission) : Prop where
  grows : e.workspace.Grows e'.workspace
  faithful : e'.workspace.Faithful source target asked

namespace Serves

/-- What is asked for is left alone. -/
theorem quiet (hf : e.workspace.Faithful source target asked)
    (hgrows : e.workspace.Grows e'.workspace)
    (huntouched : Workspace.Untouched e.workspace e'.workspace) :
    Serves source target asked e e' :=
  ⟨hgrows, hf.of_untouched huntouched⟩

theorem refl (hf : e.workspace.Faithful source target asked) : Serves source target asked e e :=
  ⟨.refl, hf⟩

theorem trans (h : Serves source target asked e e') (h' : Serves source target asked e' e'') :
    Serves source target asked e e'' :=
  ⟨h.grows.trans h'.grows, h'.faithful⟩

end Serves

/-- A computation that serves whoever asks. -/
def Serving (source target : Lexicon) (asked : Asked) (m : Emit α) : Prop :=
  ∀ e : Emission, e.workspace.Coherent → e.workspace.Faithful source target asked →
    Serves source target asked e (m e).2

theorem Serving.bind {m : Emit α} {f : α → Emit β} (hm : Serving source target asked m)
    (hf : ∀ a, Serving source target asked (f a)) : Serving source target asked (m >>= f) := by
  intro e he hfaithful
  have hfirst := hm e he hfaithful
  exact hfirst.trans (hf (m e).1 (m e).2 (he.grows hfirst.grows) hfirst.faithful)

/-- What the provider of a label asks for, the rule asks for. -/
theorem mem_demandsOf_of_label {r : Resolution} {claimed : List String}
    (hb : b ∈ labelsFor r.occurrences (bindingOrder ctx r.providers) claimed)
    {demand : MacroDemand} (hdemand : macroDemand? ctx b.occurrence = some demand) :
    (demand, b.occurrence.position) ∈ demandsOf ctx r := by
  have hprovider := (provider_labelsFor_sublist _ _).subset
    (List.mem_map_of_mem (f := BoundLabel.provider) hb)
  refine List.mem_flatMap.2 ⟨b.provider, hprovider, ?_⟩
  rw [callsOf, if_pos (isConsumed_of_mem_labelsFor hb), ← BoundLabel.occurrence, hdemand]
  exact List.mem_singleton_self _

variable (hu : Unambiguous source target asked)

include hu

/-- A macro is asked for and called. -/
theorem callMacro_serving (htarget : ctx.target = target) {demand : MacroDemand}
    (hasked : demand ∈ asked.macros) {prepare : Emit (Except Issue Unit)}
    (hprepare : Serving source target asked prepare) (position : Nat) (name : String) :
    Serving source target asked (callMacro ctx demand prepare position name) := by
  intro e he hfaithful
  subst htarget
  unfold callMacro
  rw [bind_apply, tryWorkspace_apply]
  cases hrequest : demand.request ctx.target e.workspace with
  | error issue => exact .refl hfaithful
  | ok answer =>
      obtain ⟨handle, w⟩ := answer
      have hgrows : e.workspace.Grows w := demand.request_grows hrequest
      obtain ⟨hw, -⟩ := hfaithful.request hu he hasked hrequest
      have hready := hprepare { e with workspace := w } (he.grows hgrows) hw
      have hprepared : Serves source ctx.target asked e (prepare { e with workspace := w }).2 :=
        ⟨hgrows.trans hready.grows, hready.faithful⟩
      dsimp only
      rw [bind_apply]
      cases (prepare { e with workspace := w }).1 with
      | error issue => exact hprepared
      | ok _ => exact ⟨hprepared.grows, hprepared.faithful⟩

/-- **Whatever is composed of the steps** serves, if it asks for macros that are asked for. -/
theorem Composed.serving (htarget : ctx.target = target) {m : Emit α} (h : Composed ctx calls m)
    (hasked : ∀ call ∈ calls, call.1 ∈ asked.macros) : Serving source target asked m := by
  induction h with
  | pure a => exact fun _ _ hfaithful => .refl hfaithful
  | bind _ _ ihm ihf =>
      refine (ihm fun call hcall => hasked call (List.mem_append_left _ hcall)).bind fun a => ?_
      exact ihf a fun call hcall => hasked call (List.mem_append_right _ hcall)
  | gather f => exact fun _ _ hfaithful => .refl hfaithful
  | step s => exact fun _ _ hfaithful => .quiet hfaithful .refl (.refl _)
  | report issue => exact fun _ _ hfaithful => .quiet hfaithful .refl (.refl _)
  | claim base position => exact fun _ _ hfaithful => .quiet hfaithful .refl (.refl _)
  | claimExactly name =>
      intro e _ hfaithful
      rw [claimExactly_apply]
      split
      · exact .refl hfaithful
      · exact .quiet hfaithful .refl (.refl _)
  | part x q =>
      intro e he hfaithful
      rw [tryWorkspace_apply]
      cases hrequest : e.workspace.ensureAttribute x q with
      | error issue => exact .refl hfaithful
      | ok answer =>
          exact .quiet hfaithful (he.ensureAttribute_grows hrequest).1 (.ensureAttribute hrequest)
  | var name =>
      exact fun e _ hfaithful => .quiet hfaithful (e.workspace.ensureVariable_grows name none).1
        (.ensureVariable _ name none)
  | gramCat categories =>
      exact fun e he hfaithful => .quiet hfaithful (he.ensureGramCat_grows categories).1
        (.ensureGramCat _ categories)
  | call demand _ position name ih =>
      exact callMacro_serving hu htarget (hasked _ (List.mem_singleton_self _)) (ih nofun) position
        name

/-! ## Labels -/

/-- **A block calls the macro that was asked for.** -/
theorem Block.served (htarget : ctx.target = target) {bound : List BoundLabel} {w w' : Workspace}
    (hw : w.Coherent) (hf : w.Faithful source target asked)
    (hasked : ∀ demand ∈ macroDemand? ctx b.occurrence, demand ∈ asked.macros)
    (h : Block ctx bound b w block w') : ServedBlock ctx w'.document b block := by
  subst htarget
  cases h with
  | @read isAffix part _ hsite _ =>
      have hnone : macroDemand? ctx b.occurrence = none := by
        unfold macroDemand?
        split
        · next hword => exact absurd hword hsite
        · rfl
      obtain ⟨s, hstep⟩ := exists_sourceStatement_eq_step ctx.source
        ⟨b.occurrence.sourceCategory, b.occurrence.feature.label, isAffix, true⟩
        b.occurrence.position part b.name
      rw [hstep]
      exact .read [s] hnone
  | @lemmaMacro handle _ hsite hset hanswered =>
      have hdemand : macroDemand? ctx b.occurrence = _ := macroDemand?_of_word hsite
      rw [hset] at hdemand
      have hstands := (hf.request (d := .lemmaMacro _ _) hu hw (hasked _ hdemand) hanswered).2
      exact .call [] _ hdemand hstands
  | @disjointMacro set handle prepared origin w₁ _ hset hanswered hprepares =>
      have hdemand : macroDemand? ctx b.occurrence = _ :=
        macroDemand?_of_word (site_of_disjointSetOf? hset)
      rw [hset] at hdemand
      have hstands := (hf.request (d := .disjointMacro set) hu hw (hasked _ hdemand) hanswered).2
      have huntouched : Workspace.Untouched w₁ w' := by
        cases hprepares with
        | read _ hfinds => exact .ensureAttribute hfinds.answered
        | copied _ => exact .refl _
      obtain ⟨s, rfl⟩ := hprepares.exists_step
      refine .call [s] _ hdemand ?_
      rw [MacroDemand.StandsUnder, huntouched.definition?_macros]
      exact hstands

/-- **Run lemma.**  The labels are bound by blocks with calls that are answered rightly. -/
theorem Binds.serves (htarget : ctx.target = target) {occurrences : List Occurrence}
    {done : List Provider} {bound : List BoundLabel} {statements : List Statement}
    (h : Binds ctx occurrences e done bound statements e')
    (hasked : ∀ call ∈ done.flatMap (callsOf ctx occurrences), call.1 ∈ asked.macros)
    (he : e.workspace.Coherent) (hfaithful : e.workspace.Faithful source target asked) :
    Serves source target asked e e' ∧ ∃ blocks, statements = blocks.flatten ∧
      List.Forall₂ (ServedBlock ctx e'.workspace.document) bound blocks := by
  induction h with
  | nil => exact ⟨.refl hfaithful, [], rfl, .nil⟩
  | @snoc done p bound more statements block e' e'' _ hrun _ hstep ih =>
      rw [List.flatMap_append, List.flatMap_singleton] at hasked
      have hcalls : ∀ call ∈ callsOf ctx occurrences p, call.1 ∈ asked.macros :=
        fun call hcall => hasked call (List.mem_append_right _ hcall)
      obtain ⟨hserves, blocks, rfl, hblocks⟩ :=
        ih fun call hcall => hasked call (List.mem_append_left _ hcall)
      have hcoherent := he.grows hserves.grows
      have hlast : Serves source target asked e' e'' := by
        have hcomposed : Composed ctx (callsOf ctx occurrences p)
            (bindLabel ctx occurrences (bound.map BoundLabel.entry) p) := bindLabel_composed _ _ _
        have hbinds := hcomposed.serving hu htarget hcalls e' hcoherent hserves.faithful
        rwa [hrun] at hbinds
      have hkept : List.Forall₂ (ServedBlock ctx e''.workspace.document) bound blocks :=
        hblocks.imp fun _ _ hb => hb.mono fun _ _ _ _ => hlast.grows.definition?_eq_some nofun
      refine ⟨hserves.trans hlast, ?_⟩
      cases hstep with
      | unused _ => exact ⟨blocks, List.append_nil _, (List.append_nil bound).symm ▸ hkept⟩
      | refused _ _ _ => exact ⟨blocks, List.append_nil _, (List.append_nil bound).symm ▸ hkept⟩
      | added hused _ hblock hworkspace =>
          have hprovider : ∀ demand ∈ macroDemand? ctx p.occurrence, demand ∈ asked.macros := by
            intro demand hdemand
            refine hcalls (demand, p.occurrence.position) ?_
            rw [callsOf, if_pos hused, Option.mem_def.1 hdemand]
            exact List.mem_singleton_self _
          have hserved := Block.served (b := ⟨p, variableFor p e'.claimed⟩) hu htarget hcoherent
            hserves.faithful hprovider hblock
          refine ⟨blocks ++ [block], by simp, List.rel_append hkept (.cons ?_ .nil)⟩
          refine hserved.mono fun _ _ _ m hm => ?_
          rw [hworkspace, (Workspace.Untouched.ensureVariable _ _ _).definition?_macros]
          exact hm

/-! ## Rules -/

/-- The pattern names the categories of the source words, and they stand under their names. -/
theorem emitPattern_serves (hsource : ctx.source = source) (words : List SourceWord)
    (hwords : ∀ w ∈ words, w ∈ asked.words) (he : e.workspace.Coherent)
    (hfaithful : e.workspace.Faithful source target asked) :
    (emitPattern ctx words e).1 = words.map SourceWord.patternName ∧
      Serves source target asked e (emitPattern ctx words e).2 ∧
      ∀ w ∈ words, (emitPattern ctx words e).2.workspace.document.definition? .categories
        w.patternName = some (categoryFor source w) := by
  subst hsource
  induction words generalizing e with
  | nil => exact ⟨rfl, .refl hfaithful, fun _ hw => absurd hw List.not_mem_nil⟩
  | cons w words ih =>
      have hrun : emitPattern ctx (w :: words) e =
          let found := e.workspace.ensureCategory ctx.source w.categoryName w.fixedValues
          let rest := emitPattern ctx words { e with workspace := found.2 }
          (found.1 :: rest.1, rest.2) := by
        rw [emitPattern, List.mapM_cons]
        rfl
      obtain ⟨hname, hfaithful', hstands⟩ := hfaithful.category hu (hwords w List.mem_cons_self)
      have hgrows := (e.workspace.ensureCategory_grows ctx.source w.categoryName w.fixedValues).1
      obtain ⟨hnames, hserves, hrest⟩ := ih (e := { e with
          workspace := (e.workspace.ensureCategory ctx.source w.categoryName w.fixedValues).2 })
        (fun w' hw' => hwords w' (List.mem_cons_of_mem _ hw')) (he.grows hgrows) hfaithful'
      rw [hrun]
      refine ⟨?_, ⟨hgrows.trans hserves.grows, hserves.faithful⟩, fun w' hw' => ?_⟩
      · exact congrArg₂ List.cons hname hnames
      · rcases List.mem_cons.1 hw' with rfl | hw'
        · exact hserves.grows.definition?_eq_some (by decide) hstands
        · exact hrest w' hw'

/-- **A compilation** in a faithful workspace keeps it faithful and serves the rule. -/
theorem compile_serves (rule : Rule) (r : Resolution) (hsource : ctx.source = source)
    (htarget : ctx.target = target) (hwords : ∀ w ∈ rule.source, w ∈ asked.words)
    (hasked : ∀ call ∈ demandsOf ctx r, call.1 ∈ asked.macros) (he : e.workspace.Coherent)
    (hfaithful : e.workspace.Faithful source target asked) (hclaimed : e.claimed = [])
    (hstatements : e.statements = []) :
    (compile ctx rule r e).2.workspace.Faithful source target asked ∧
      RuleServed ctx (compile ctx rule r e).2.workspace.document rule r
        (compile ctx rule r e).1 := by
  obtain ⟨hnames, hpattern, hcategories⟩ :=
    emitPattern_serves hu hsource rule.source hwords he hfaithful
  obtain ⟨bound, statements, start, hstart, hnone, hopen, -, hbinds⟩ :=
    openRule_binds ctx rule r e
  have hreported : Serves source target asked (emitPattern ctx rule.source e).2 start := by
    have hreports : Composed ctx [] ((ignoredFeatures rule.name r).forM report) :=
      Composed.forM .report _
    have hissues := hreports.serving hu htarget nofun _ (he.grows hpattern.grows) hpattern.faithful
    have hsame : (((ignoredFeatures rule.name r).forM report : Emit Unit)
        (emitPattern ctx rule.source e).2).2 = start := congrArg Prod.snd (hopen [])
    rwa [hsame] at hissues
  have hready := hpattern.trans hreported
  obtain ⟨hbound, blocks, rfl, hblocks⟩ :=
    hbinds.serves hu htarget hasked (he.grows hready.grows) hready.faithful
  have hopened := hready.trans hbound
  have hcloses : Composed ctx [] (closeRule ctx rule r (openRule ctx rule r e).1.1
      (openRule ctx rule r e).1.2) := closeRule_composed _ _ _ _
  have hclosed := hcloses.serving hu htarget nofun _ (he.grows hopened.grows) hopened.faithful
  subst hsource htarget
  rw [compile_eq_open, bind_apply]
  refine ⟨hclosed.faithful, ?_, fun w hw => ?_, ?_⟩
  · exact (pattern_closeRule _ _ _ _ _).trans hnames
  · exact ((hreported.trans hbound).trans hclosed).grows.definition?_eq_some nofun
      (hcategories w hw)
  · obtain ⟨steps, hsteps⟩ := statements_closeRule ctx rule r (openRule ctx rule r e).1.1
      (openRule ctx rule r e).1.2 (openRule ctx rule r e).2
    rw [hsteps, hbinds.statements_eq, hnone, hstatements, List.nil_append]
    refine ⟨bound, blocks, steps, ?_, rfl, ?_⟩
    · rw [← hclaimed, ← hstart]
      exact hbinds.sublist
    · exact hblocks.imp fun _ _ hb =>
        hb.mono fun _ _ _ _ => hclosed.grows.definition?_eq_some nofun

end TransferRules.Compile
