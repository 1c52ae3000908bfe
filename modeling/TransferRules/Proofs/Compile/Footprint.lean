import TransferRules.Proofs.Compile.Predictable
import TransferRules.Proofs.Compile.Repetition

/-!
# A rule by itself

Where requests are predictable, it makes no difference to a rule what was compiled before it.  Its
compilation is compared with one that starts with nothing: both refer to the same categories,
macros and variables, and what the one adds to a workspace is what the other has made in all.
Attributes are the exception, since features with the same values share one, and whose name it gets
depends on which feature came first.

## Main Definitions

* `SameNames` — references to the same definitions, attributes aside
* `Parallel` — an emission that started with nothing, and one that started in some workspace
* `Uniform` — a computation that does the same in both

## Main Statements

* `bindLabels_uniform`, `Uniform.of_local` — the stages of a compilation
* `compile_parallel` — a compilation as a whole, beside one that starts with nothing

## Design Notes

Only the answers to requests for attributes may differ, and they are used at once by a statement
that reads a source word.  So all results are equal but these.
-/

namespace TransferRules.Compile

open TransferRules.Action
open TransferRules.Ordered
open TransferRules.Transfer

/-! ## References -/

/-- The same definitions are referred to, attributes aside. -/
def SameNames (rs rs' : List Reference) : Prop := ∀ r, r.kind ≠ .attributes → (r ∈ rs ↔ r ∈ rs')

namespace SameNames

variable {rs rs' ss ss' : List Reference}

theorem refl (rs : List Reference) : SameNames rs rs := fun _ _ => .rfl

theorem append (h : SameNames rs rs') (h' : SameNames ss ss') :
    SameNames (rs ++ ss) (rs' ++ ss') := by
  intro r hr
  rw [List.mem_append, List.mem_append, h r hr, h' r hr]

end SameNames

/-- The statement that reads a source word refers to the variable that it sets, attributes aside. -/
theorem references_sourceStatement (x : Lexicon) (key : FeatureKey) (position : Nat)
    (part target : String) {r : Reference} (hr : r.kind ≠ .attributes) :
    r ∈ (sourceStatement x key position part target).references ↔ r = ⟨.vars, target⟩ := by
  have hclip : r ∉ (Value.clip position .source part).references := by
    show r ∉ if part ∈ builtinParts then [] else [⟨.attributes, part⟩]
    split
    · exact List.not_mem_nil
    · intro hmem
      rw [List.mem_singleton.1 hmem] at hr
      exact hr rfl
  unfold sourceStatement
  split
  · -- Every gloss is compared with the clip, and all alternatives set the variable.
    have htest : ∀ glosses : List String,
        r ∉ (Test.any (glosses.map fun gloss =>
          ⟨.clip position .source part, .tag gloss⟩)).references := by
      intro glosses hmem
      obtain ⟨equation, hequation, hmem⟩ := List.mem_flatMap.1 hmem
      obtain ⟨gloss, -, rfl⟩ := List.mem_map.1 hequation
      rcases List.mem_append.1 hmem with hmem | hmem
      · exact hclip hmem
      · cases hmem
    show r ∈ (glossChoice position part target _).references Assignment.references ↔ _
    rw [Choice.references, List.mem_append, List.mem_flatMap]
    refine ⟨?_, fun h => .inr (List.mem_flatMap.2 ⟨_, List.mem_singleton_self _, ?_⟩)⟩
    · rintro (⟨branch, hbranch, hmem⟩ | hmem)
      · obtain ⟨group, -, rfl⟩ := List.mem_map.1 hbranch
        rcases List.mem_append.1 hmem with hmem | hmem
        · exact absurd hmem (htest group.2)
        · exact List.mem_singleton.1 hmem
      · obtain ⟨assignment, hassignment, hmem⟩ := List.mem_flatMap.1 hmem
        obtain rfl := List.mem_singleton.1 hassignment
        exact List.mem_singleton.1 hmem
    · exact List.mem_singleton.2 h
  · show r ∈ ⟨.vars, target⟩ :: (Value.clip position .source part).references ↔ _
    rw [List.mem_cons, or_iff_left hclip]

/-! ## Two emissions -/

/-- The lexicon that knows the values of a feature. -/
def Lexicons.knowing (ctx : Lexicons) (key : FeatureKey) : Lexicon :=
  if key.isSource then ctx.source else ctx.target

/-- For every feature that is resolved in a workspace, some attribute of a document lists exactly
its values. -/
def Listed (ctx : Lexicons) (d : TransferDocument) (w : Workspace) : Prop :=
  ∀ key, .feature key ∈ w.assets → HasValues d (featureValues (ctx.knowing key) key)

/-- An emission of a compilation that started with nothing, and one of the same compilation in a
workspace that has something. -/
structure Parallel (ctx : Lexicons) (asked : List MacroDemand) (w : Workspace)
    (e₀ e : Emission) : Prop where
  alone : e₀.workspace.Predictable ctx.source ctx.target asked
  within : e.workspace.Predictable ctx.source ctx.target asked
  claimed : e.claimed = e₀.claimed
  statements : SameNames (e₀.statements.flatMap Statement.references)
    (e.statements.flatMap Statement.references)
  assets : e.workspace.assets = w.assets ∪ e₀.workspace.assets
  attributes : Listed ctx w.document e₀.workspace →
    e.workspace.document.definitions .attributes = w.document.definitions .attributes

variable {ctx : Lexicons} {asked : List MacroDemand} {w v₀ v : Workspace} {e₀ e : Emission}
  {α β : Type}

theorem hasValues_congr {d d' : TransferDocument} {values : StringSet}
    (h : d'.definitions .attributes = d.definitions .attributes) :
    HasValues d' values ↔ HasValues d values := by
  unfold HasValues HasAttribute
  rw [h]

theorem covers_congr {categories : StringSet}
    (h : v.document.definitions .attributes = w.document.definitions .attributes) :
    v.Covers categories ↔ w.Covers categories := by
  unfold Workspace.Covers TransferDocument.definition?
  rw [h]

namespace Parallel

theorem start (hw : w.Predictable ctx.source ctx.target asked) :
    Parallel ctx asked w { workspace := .ofDocument .blank, report := .empty }
      { workspace := w, report := .empty } where
  alone := Workspace.predictable_ofDocument (TransferDocument.asLoaded_of_sections rfl) nofun
  within := hw
  claimed := rfl
  statements := .refl _
  assets := by
    refine (Set.union_eq_left.2 fun asset hasset => ?_).symm
    cases asset with
    | definition kind name =>
        obtain ⟨-, -, hname⟩ := Workspace.definition_mem_assets.1 hasset
        cases kind <;> cases hname
    | feature key => cases hasset
  attributes _ := rfl

/-- Both workspaces get the same. -/
theorem grow (h : Parallel ctx asked w e₀ e) (added : Set Asset)
    (halone : v₀.Predictable ctx.source ctx.target asked)
    (hwithin : v.Predictable ctx.source ctx.target asked)
    (hassets₀ : v₀.assets = e₀.workspace.assets ∪ added)
    (hassets : v.assets = e.workspace.assets ∪ added)
    (hattributes : Listed ctx e.workspace.document v₀ →
      v.document.definitions .attributes = e.workspace.document.definitions .attributes) :
    Parallel ctx asked w { e₀ with workspace := v₀ } { e with workspace := v } where
  alone := halone
  within := hwithin
  claimed := h.claimed
  statements := h.statements
  assets := by
    show v.assets = w.assets ∪ v₀.assets
    rw [hassets, hassets₀, h.assets, Set.union_assoc]
  attributes hlisted := by
    have hbefore := h.attributes fun key hkey =>
      hlisted key (hassets₀.symm ▸ Set.mem_union_left added hkey)
    refine (hattributes fun key hkey => ?_).trans hbefore
    exact (hasValues_congr hbefore).2 (hlisted key hkey)

end Parallel

/-- Two computations that do the same whether they start with nothing or within some workspace;
their results are related. -/
def Uniform (ctx : Lexicons) (asked : List MacroDemand) (w : Workspace) (R : α → α → Prop)
    (m₀ m : Emit α) : Prop :=
  ∀ e₀ e, Parallel ctx asked w e₀ e →
    R (m₀ e₀).1 (m e).1 ∧ Parallel ctx asked w (m₀ e₀).2 (m e).2

namespace Uniform

variable {R : α → α → Prop} {S : β → β → Prop} {m₀ m : Emit α} {f₀ f : α → Emit β}

theorem pure (a : α) : Uniform ctx asked w Eq (Pure.pure a : Emit α) (Pure.pure a) :=
  fun _ _ h => ⟨rfl, h⟩

theorem bindRelated (hm : Uniform ctx asked w R m₀ m)
    (hf : ∀ a a', R a a' → Uniform ctx asked w S (f₀ a) (f a')) :
    Uniform ctx asked w S (m₀ >>= f₀) (m >>= f) := by
  intro e₀ e h
  obtain ⟨hresult, hnext⟩ := hm e₀ e h
  exact hf _ _ hresult _ _ hnext

theorem bind (hm : Uniform ctx asked w Eq m₀ m)
    (hf : ∀ a, Uniform ctx asked w S (f₀ a) (f a)) :
    Uniform ctx asked w S (m₀ >>= f₀) (m >>= f) :=
  hm.bindRelated fun a _ ha => ha ▸ hf a

theorem foldlM {f : β → α → Emit β} (l : List α)
    (hf : ∀ b, ∀ a ∈ l, Uniform ctx asked w Eq (f b a) (f b a)) (b : β) :
    Uniform ctx asked w Eq (l.foldlM f b) (l.foldlM f b) := by
  induction l generalizing b with
  | nil => exact pure b
  | cons a l ih =>
      rw [List.foldlM_cons]
      exact (hf b a List.mem_cons_self).bind
        (ih fun b a ha => hf b a (List.mem_cons_of_mem _ ha))

theorem mapM {f : α → Emit β} (hf : ∀ a, Uniform ctx asked w Eq (f a) (f a)) (l : List α) :
    Uniform ctx asked w Eq (l.mapM f) (l.mapM f) := by
  induction l with
  | nil => exact pure []
  | cons a l ih =>
      rw [List.mapM_cons]
      exact (hf a).bind fun b => ih.bind fun bs => pure (b :: bs)

/-- Two statements that refer to the same names are added. -/
theorem emit {s₀ s : Statement} (hs : SameNames s₀.references s.references) :
    Uniform ctx asked w Eq (Compile.emit s₀) (Compile.emit s) := by
  intro e₀ e h
  refine ⟨rfl, { h with statements := ?_ }⟩
  show SameNames ((e₀.statements ++ [s₀]).flatMap _) ((e.statements ++ [s]).flatMap _)
  rw [List.flatMap_append, List.flatMap_append, List.flatMap_singleton, List.flatMap_singleton]
  exact h.statements.append hs

theorem report (issue : Issue) :
    Uniform ctx asked w Eq (Compile.report issue) (Compile.report issue) :=
  fun _ _ h => ⟨rfl, { h with }⟩

theorem claim (base : String) (position : Nat) :
    Uniform ctx asked w Eq (Compile.claim base position) (Compile.claim base position) := by
  intro e₀ e h
  have hname : unclaimed base position e₀.claimed = unclaimed base position e.claimed := by
    rw [h.claimed]
  refine ⟨hname, { h with claimed := ?_ }⟩
  show unclaimed base position e.claimed :: e.claimed = unclaimed base position e₀.claimed :: _
  rw [h.claimed]

theorem claimExactly (name : String) :
    Uniform ctx asked w Eq (Compile.claimExactly name) (Compile.claimExactly name) := by
  intro e₀ e h
  rw [claimExactly_apply, claimExactly_apply, h.claimed]
  split
  · exact ⟨rfl, h⟩
  · exact ⟨rfl, { h with claimed := rfl }⟩

theorem defineVariable (name : String) :
    Uniform ctx asked w Eq (Compile.defineVariable name) (Compile.defineVariable name) := by
  intro e₀ e h
  refine ⟨rfl, h.grow {.definition .vars name} (h.alone.ensureVariable name none)
    (h.within.ensureVariable name none) ?_ ?_ fun _ => ?_⟩
  · exact (Workspace.assets_ensureVariable _ _ _).trans Set.union_singleton.symm
  · exact (Workspace.assets_ensureVariable _ _ _).trans Set.union_singleton.symm
  · exact e.workspace.definitions_ensureVariable name none nofun

/-- **Whatever looks at nothing but the claimed variables** does the same. -/
theorem of_local {m : Emit α} (h : Local m) : Uniform ctx asked w Eq m m := by
  induction h with
  | pure a => exact pure a
  | bind _ _ ihm ihf => exact ihm.bind ihf
  | step s => exact emit (.refl _)
  | report issue => exact report issue
  | claim base position => exact claim base position
  | claimExactly name => exact claimExactly name
  | var name => exact defineVariable name

end Uniform

/-! ## Requests -/

/-- A feature of the source lexicon is resolved in both, or in none. -/
theorem ensureAttribute_uniform {q : FeatureQuery} (hsource : q.key.isSource = true) :
    Uniform ctx asked w SameOutcome (tryWorkspace fun w => w.ensureAttribute ctx.source q)
      (tryWorkspace fun w => w.ensureAttribute ctx.source q) := by
  intro e₀ e h
  rw [tryWorkspace_apply, tryWorkspace_apply]
  cases hvalues : (featureValues ctx.source q.key).isEmpty with
  | true =>
      rw [h.alone.ensureAttribute_error hsource hvalues,
        h.within.ensureAttribute_error hsource hvalues]
      exact ⟨.error _ _, h⟩
  | false =>
      obtain ⟨name₀, v₀, hok₀, halone, hassets₀, -⟩ := h.alone.ensureAttribute_ok hvalues
      obtain ⟨name, v, hok, hwithin, hassets, hattributes⟩ := h.within.ensureAttribute_ok hvalues
      rw [hok₀, hok]
      refine ⟨.ok _ _, h.grow {.feature q.key} halone hwithin ?_ ?_ fun hlisted => ?_⟩
      · exact hassets₀.trans Set.union_singleton.symm
      · exact hassets.trans Set.union_singleton.symm
      · have hlexicon : ctx.knowing q.key = ctx.source := if_pos hsource
        exact hattributes (hlexicon ▸ hlisted q.key (hassets₀.symm ▸ Set.mem_insert _ _))

theorem readSource_uniform (position : Nat) (category label target : String) (affixFirst : Bool) :
    Uniform ctx asked w Eq (readSource ctx position category label target affixFirst)
      (readSource ctx position category label target affixFirst) := by
  have hread : ∀ (key : FeatureKey) (part part' : String), Uniform ctx asked w Eq
      (do emit (sourceStatement ctx.source key position part target)
          return .ok () : Emit (Except Issue Unit))
      (do emit (sourceStatement ctx.source key position part' target)
          return .ok ()) := by
    intro key part part'
    refine (Uniform.emit fun r hr => ?_).bind fun _ => .pure _
    rw [references_sourceStatement _ _ _ _ _ hr, references_sourceStatement _ _ _ _ _ hr]
  unfold readSource
  refine (ensureAttribute_uniform rfl).bindRelated ?_
  rintro _ _ (⟨part, part'⟩ | ⟨issue, issue'⟩)
  · exact hread _ part part'
  · refine (ensureAttribute_uniform rfl).bindRelated ?_
    rintro _ _ (⟨part, part'⟩ | ⟨issue, issue'⟩)
    · exact hread _ part part'
    · exact .pure _

theorem prepareCoFeature_uniform (set : DisjointSet) (bindings : Bindings) (o : Occurrence) :
    Uniform ctx asked w Eq (prepareCoFeature ctx set bindings o)
      (prepareCoFeature ctx set bindings o) := by
  unfold prepareCoFeature
  split
  · exact (Uniform.emit (.refl _)).bind fun _ => .pure _
  · exact readSource_uniform _ _ _ _ _

theorem emitPattern_uniform (words : List SourceWord) :
    Uniform ctx asked w Eq (emitPattern ctx words) (emitPattern ctx words) := by
  refine .mapM (fun word e₀ e h => ?_) words
  obtain ⟨hname₀, hassets₀⟩ :=
    e₀.workspace.assets_ensureCategory ctx.source word.categoryName word.fixedValues
  obtain ⟨hname, hassets⟩ :=
    e.workspace.assets_ensureCategory ctx.source word.categoryName word.fixedValues
  refine ⟨hname₀.trans hname.symm, h.grow {.definition .categories word.patternName}
    (h.alone.ensureCategory _ _ _) (h.within.ensureCategory _ _ _) ?_ ?_ fun _ => ?_⟩
  · exact hassets₀.trans Set.union_singleton.symm
  · exact hassets.trans Set.union_singleton.symm
  · exact e.workspace.definitions_ensureCategory _ _ _ nofun

section Macros

variable (hr : Reusable ctx.target asked)

include hr

/-- A macro is answered alike in both, or refused in both. -/
theorem request_uniform {d : MacroDemand} (hd : d ∈ asked) :
    Uniform ctx asked w Eq (tryWorkspace fun w => d.request ctx.target w)
      (tryWorkspace fun w => d.request ctx.target w) := by
  intro e₀ e h
  rw [tryWorkspace_apply, tryWorkspace_apply]
  cases hanswerable : d.isAnswerable ctx.target with
  | false =>
      rw [h.alone.request_error hr hd hanswerable, h.within.request_error hr hd hanswerable]
      exact ⟨rfl, h⟩
  | true =>
      obtain ⟨v₀, hok₀, halone, hassets₀, -⟩ := h.alone.request_ok hr hd hanswerable
      obtain ⟨v, hok, hwithin, hassets, hattributes⟩ := h.within.request_ok hr hd hanswerable
      rw [hok₀, hok]
      exact ⟨rfl, h.grow d.assets halone hwithin hassets₀ hassets fun _ => hattributes⟩

theorem callMacro_uniform {d : MacroDemand} (hd : d ∈ asked) {prepare : Emit (Except Issue Unit)}
    (hprepare : Uniform ctx asked w Eq prepare prepare) (position : Nat) (target : String) :
    Uniform ctx asked w Eq (callMacro ctx d prepare position target)
      (callMacro ctx d prepare position target) := by
  unfold callMacro
  refine (request_uniform hr hd).bind fun answer => ?_
  cases answer with
  | error issue => exact .pure _
  | ok handle =>
      refine hprepare.bind fun prepared => ?_
      cases prepared with
      | error issue => exact .pure _
      | ok _ =>
          exact (Uniform.emit (.refl _)).bind fun _ =>
            (Uniform.emit (.refl _)).bind fun _ => .pure _

theorem provide_uniform (bindings : Bindings) (o : Occurrence) (target : String)
    (hasked : ∀ d ∈ macroDemand? ctx o, d ∈ asked) :
    Uniform ctx asked w Eq (provide ctx bindings o target) (provide ctx bindings o target) := by
  unfold provide
  unfold macroDemand? at hasked
  cases hsite : o.site with
  | source => exact readSource_uniform _ _ _ _ _
  | affix index => exact readSource_uniform _ _ _ _ _
  | word =>
      rw [hsite] at hasked
      cases hset : disjointSetOf? ctx o with
      | some set =>
          rw [hset] at hasked
          show Uniform ctx asked w Eq (callDisjointMacro ctx set bindings o target)
            (callDisjointMacro ctx set bindings o target)
          rw [callDisjointMacro_eq]
          exact callMacro_uniform hr (hasked _ rfl) (prepareCoFeature_uniform set bindings o) _ _
      | none =>
          rw [hset] at hasked
          show Uniform ctx asked w Eq (callLemmaMacro ctx o target) (callLemmaMacro ctx o target)
          rw [callLemmaMacro_eq]
          exact callMacro_uniform hr (hasked _ rfl) (.pure _) _ _

theorem bindLabel_uniform {occurrences : List Occurrence} (bindings : Bindings) {p : Provider}
    (hasked : ∀ call ∈ callsOf ctx occurrences p, call.1 ∈ asked) :
    Uniform ctx asked w Eq (bindLabel ctx occurrences bindings p)
      (bindLabel ctx occurrences bindings p) := by
  unfold bindLabel
  unfold callsOf at hasked
  split
  · next hconsumed =>
    rw [if_pos hconsumed] at hasked
    refine (Uniform.claim _ _).bind fun name => ?_
    refine (provide_uniform hr bindings p.occurrence name fun d hd => ?_).bind fun result => ?_
    · exact hasked (d, p.occurrence.position) (List.mem_map_of_mem (Option.mem_toList.2 hd))
    · cases result with
      | ok _ => exact (Uniform.defineVariable name).bind fun _ => .pure _
      | error issue => exact (Uniform.report issue).bind fun _ => .pure _
  · exact .pure bindings

/-- **Match labels are bound alike.** -/
theorem bindLabels_uniform {r : Resolution} (hasked : ∀ call ∈ demandsOf ctx r, call.1 ∈ asked) :
    Uniform ctx asked w Eq (bindLabels ctx r) (bindLabels ctx r) :=
  .foldlM _ (fun bindings p hp => bindLabel_uniform hr bindings fun call hcall =>
    hasked call (List.mem_flatMap.2 ⟨p, hp, hcall⟩)) []

theorem openRule_uniform (rule : Rule) {r : Resolution}
    (hasked : ∀ call ∈ demandsOf ctx r, call.1 ∈ asked) :
    Uniform ctx asked w Eq (openRule ctx rule r) (openRule ctx rule r) := by
  have hissues : ∀ issues : List Issue,
      Uniform ctx asked w Eq (issues.forM report) (issues.forM report) := by
    intro issues
    induction issues with
    | nil => exact .pure _
    | cons issue issues ih => exact (Uniform.report issue).bind fun _ => ih
  unfold openRule
  exact (emitPattern_uniform rule.source).bind fun pattern => (hissues _).bind fun _ =>
    (bindLabels_uniform hr hasked).bind fun bindings => .pure (pattern, bindings)

end Macros

/-! ## Rules -/

/-- What the second part of a compilation gives back. -/
theorem closeRule_fst (rule : Rule) (r : Resolution) (pattern : List String) (b : Bindings)
    (e : Emission) : (closeRule ctx rule r pattern b e).1 =
      ⟨pattern, (emitOutput ctx b rule r rule.target.zipIdx e).2.statements,
        (emitOutput ctx b rule r rule.target.zipIdx e).1⟩ := by
  unfold closeRule
  rw [bind_apply]
  split
  · rfl
  · rfl

/-- **A rule by itself.**  A compilation in a predictable workspace is compared with one that starts
with nothing.  The rules refer to the same names, attributes aside, and the workspace gets what the
other one has in the end.  No attribute is added if there is one for each feature that is resolved,
and the category attribute does not grow if it covers what the rule may put out. -/
theorem compile_parallel (hr : Reusable ctx.target asked) (rule : Rule) {r : Resolution}
    (hasked : ∀ call ∈ demandsOf ctx r, call.1 ∈ asked) (h : Parallel ctx asked w e₀ e) :
    SameNames (compile ctx rule r e₀).1.references (compile ctx rule r e).1.references ∧
      (compile ctx rule r e).2.workspace.Predictable ctx.source ctx.target asked ∧
      (compile ctx rule r e).2.workspace.assets =
        w.assets ∪ (compile ctx rule r e₀).2.workspace.assets ∧
      (Listed ctx w.document (compile ctx rule r e₀).2.workspace →
        (needsGramCat rule = true → w.Covers (ruleCategories ctx rule)) →
          (compile ctx rule r e).2.workspace.document.definitions .attributes =
            w.document.definitions .attributes) := by
  rw [compile_eq_open, bind_apply, bind_apply]
  obtain ⟨hopened, hparallel⟩ := openRule_uniform hr rule hasked e₀ e h
  rw [← hopened]
  generalize (openRule ctx rule r e₀).2 = e₀' at hparallel ⊢
  generalize (openRule ctx rule r e).2 = e' at hparallel ⊢
  obtain ⟨pattern, bindings⟩ := (openRule ctx rule r e₀).1
  obtain ⟨houtput, hclosed⟩ :=
    Uniform.of_local (emitOutput_local bindings rule r rule.target.zipIdx) e₀' e' hparallel
  dsimp only
  rw [closeRule_fst, closeRule_fst, workspace_closeRule, workspace_closeRule, ← houtput]
  refine ⟨(SameNames.refl _).append (hclosed.statements.append (.refl _)), ?_⟩
  split
  · next hneeds =>
    refine ⟨hclosed.within.ensureGramCat _, ?_, fun hlisted hcovers => ?_⟩
    · rw [Workspace.assets_ensureGramCat, Workspace.assets_ensureGramCat]
      exact hclosed.assets
    · have hbefore := hclosed.attributes fun key hkey =>
        hlisted key ((Workspace.assets_ensureGramCat _ _).symm ▸ hkey)
      refine (Workspace.definitions_ensureGramCat_of_covers ?_).trans hbefore
      exact (covers_congr hbefore).2 (hcovers hneeds)
  · exact ⟨hclosed.within, hclosed.assets, fun hlisted _ => hclosed.attributes hlisted⟩

end TransferRules.Compile
