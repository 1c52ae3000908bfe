import TransferRules.Compile.Rule

/-!
# What a compilation is composed of

Once the pattern of a rule is known, compiling it is a sequence of a few steps: attributes,
variables and the category attribute are asked for, messages are noted, variables are claimed,
statements are added, and macros are called.  Every function of the compiler is taken apart into
these steps here, once and for all.  What holds of every step, and of a sequence whenever it holds
of its parts, then holds of a compilation by induction on how it is composed.

## Main Definitions

* `MacroDemand` — a macro that is asked for
* `callMacro` — ask for a macro and call it
* `Composed` — the computations that are composed of the steps, with the calls that they may make
* `Local` — those that look at nothing but what the rule has claimed
* `demandsOf` — the calls that a rule may make

## Main Statements

* `callLemmaMacro_eq`, `callDisjointMacro_eq` — both kinds of macro are called in one way
* `bindLabels_composed`, `emitOutput_local` — the stages of a compilation
* `compile_eq` — a compilation as a whole

## Design Notes

The calls are listed in the order in which they are made.  A call is left out if the macro is
refused or its co-feature cannot be read, so a computation makes some of the calls it may make.
-/

namespace TransferRules.Compile

open TransferRules.Action
open TransferRules.Ordered

/-- A macro that is asked for: that of a feature, or that of a disjoint set. -/
inductive MacroDemand where
  | lemmaMacro (category label : String)
  | disjointMacro (set : DisjointSet)
  deriving Repr, DecidableEq

/-- What is asked of the workspace. -/
def MacroDemand.request (x : Lexicon) (w : Workspace) :
    MacroDemand → Except Issue (MacroHandle × Workspace)
  | lemmaMacro category label => w.ensureLemmaMacro x category label
  | disjointMacro set => w.ensureDisjointMacro x set

/-- The macro that is asked for when an occurrence provides a value: none unless it is on a target
word. -/
def macroDemand? (ctx : Lexicons) (o : Occurrence) : Option MacroDemand :=
  match o.site with
  | .word =>
    match disjointSetOf? ctx o with
    | some set => some (.disjointMacro set)
    | none => some (.lemmaMacro o.category o.feature.label)
  | _ => none

/-- Ask for a macro, prepare its call, and set a variable by it. -/
def callMacro (ctx : Lexicons) (demand : MacroDemand) (prepare : Emit (Except Issue Unit))
    (position : Nat) (target : String) : Emit (Except Issue Unit) := do
  match ← tryWorkspace fun w => demand.request ctx.target w with
  | .error issue => return .error issue
  | .ok handle =>
    match ← prepare with
    | .error issue => return .error issue
    | .ok () =>
      emit (.call handle.name position)
      emit (.assign target (.var handle.result))
      return .ok ()

variable {ctx : Lexicons} {α β : Type}

theorem bind_apply (m : Emit α) (f : α → Emit β) (e : Emission) :
    (m >>= f) e = f (m e).1 (m e).2 :=
  rfl

/-- What is asked of the workspace is answered, or nothing changes. -/
theorem tryWorkspace_apply (f : Workspace → Except Issue (α × Workspace)) (e : Emission) :
    tryWorkspace f e =
      match f e.workspace with
      | .ok (a, workspace) => (.ok a, { e with workspace })
      | .error issue => (.error issue, e) :=
  rfl

/-- A variable is claimed unless it was. -/
theorem claimExactly_apply (name : String) (e : Emission) :
    claimExactly name e =
      if name ∈ e.claimed then (false, e) else (true, { e with claimed := name :: e.claimed }) :=
  rfl

/-- The macro of a feature needs no preparation. -/
theorem callLemmaMacro_eq (o : Occurrence) (target : String) :
    callLemmaMacro ctx o target =
      callMacro ctx (.lemmaMacro o.category o.feature.label) (pure (.ok ())) o.position target :=
  rfl

/-- The variable in which the macro of a disjoint set finds the co-feature is set before it is
called. -/
def prepareCoFeature (ctx : Lexicons) (set : DisjointSet) (bindings : Bindings) (o : Occurrence) :
    Emit (Except Issue Unit) :=
  match bindings.coVariable? set.coFeature with
  | some bound => do
    emit (.assign (disjointNames set).2.2 (.var bound))
    return .ok ()
  | none => readSource ctx o.position o.sourceCategory set.coFeature (disjointNames set).2.2 true

theorem callDisjointMacro_eq (set : DisjointSet) (bindings : Bindings) (o : Occurrence)
    (target : String) :
    callDisjointMacro ctx set bindings o target =
      callMacro ctx (.disjointMacro set) (prepareCoFeature ctx set bindings o) o.position
        target := by
  unfold callDisjointMacro callMacro prepareCoFeature
  cases bindings.coVariable? set.coFeature with
  | some bound => rfl
  | none => rfl

/-- The computations that are composed of the steps of a compilation, with the calls that they may
make, in order: the macros that they ask for, and the positions of the words. -/
inductive Composed (ctx : Lexicons) : {α : Type} → List (MacroDemand × Nat) → Emit α → Prop where
  | pure {α : Type} (a : α) : Composed ctx [] (Pure.pure a : Emit α)
  | bind {α β : Type} {calls calls' : List (MacroDemand × Nat)} {m : Emit α} {f : α → Emit β}
      (hm : Composed ctx calls m) (hf : ∀ a, Composed ctx calls' (f a)) :
      Composed ctx (calls ++ calls') (m >>= f)
  /-- The statements are put together in the end. -/
  | gather {α : Type} (f : List Statement → α) :
      Composed ctx [] (do let e ← get; return f e.statements : Emit α)
  | step (s : Step) : Composed ctx [] (emit (.step s))
  | report (issue : Issue) : Composed ctx [] (report issue)
  | claim (base : String) (position : Nat) : Composed ctx [] (claim base position)
  | claimExactly (name : String) : Composed ctx [] (claimExactly name)
  | part (x : Lexicon) (q : FeatureQuery) :
      Composed ctx [] (tryWorkspace fun w => w.ensureAttribute x q)
  | var (name : String) : Composed ctx [] (defineVariable name)
  | gramCat (categories : StringSet) :
      Composed ctx [] (modifyWorkspace fun w => w.ensureGramCat categories)
  | call (demand : MacroDemand) {prepare : Emit (Except Issue Unit)}
      (hprepare : Composed ctx [] prepare) (position : Nat) (target : String) :
      Composed ctx [(demand, position)] (callMacro ctx demand prepare position target)

/-! ## Closure -/

namespace Composed

variable {calls : List (MacroDemand × Nat)} {m : Emit α} {f : α → Emit β}

/-- Only the second part makes calls. -/
theorem andThen (hm : Composed ctx [] m) (hf : ∀ a, Composed ctx calls (f a)) :
    Composed ctx calls (m >>= f) :=
  hm.bind hf

/-- Only the first part makes calls. -/
theorem before (hm : Composed ctx calls m) (hf : ∀ a, Composed ctx [] (f a)) :
    Composed ctx calls (m >>= f) :=
  List.append_nil calls ▸ hm.bind hf

theorem foldlM {f : β → α → Emit β} {callsOf : α → List (MacroDemand × Nat)}
    (hf : ∀ b a, Composed ctx (callsOf a) (f b a)) (l : List α) (b : β) :
    Composed ctx (l.flatMap callsOf) (l.foldlM f b) := by
  induction l generalizing b with
  | nil => exact .pure b
  | cons a l ih =>
      rw [List.foldlM_cons, List.flatMap_cons]
      exact (hf b a).bind ih

theorem forM {f : α → Emit PUnit} (hf : ∀ a, Composed ctx [] (f a)) (l : List α) :
    Composed ctx [] (l.forM f) := by
  induction l with
  | nil => exact .pure _
  | cons a l ih => exact (hf a).andThen fun _ => ih

end Composed

/-! ## Bindings -/

theorem sourceStatement_composed (x : Lexicon) (key : FeatureKey) (position : Nat)
    (part target : String) :
    Composed ctx [] (emit (sourceStatement x key position part target)) := by
  unfold sourceStatement
  split
  · exact .step _
  · exact .step _

theorem readSource_composed (position : Nat) (category label target : String)
    (affixFirst : Bool) :
    Composed ctx [] (readSource ctx position category label target affixFirst) := by
  unfold readSource
  refine (Composed.part _ _).andThen fun first => ?_
  cases first with
  | ok part => exact (sourceStatement_composed _ _ _ _ _).andThen fun _ => .pure _
  | error _ =>
      refine (Composed.part _ _).andThen fun second => ?_
      cases second with
      | ok part => exact (sourceStatement_composed _ _ _ _ _).andThen fun _ => .pure _
      | error _ => exact .pure _

theorem prepareCoFeature_composed (set : DisjointSet) (bindings : Bindings) (o : Occurrence) :
    Composed ctx [] (prepareCoFeature ctx set bindings o) := by
  unfold prepareCoFeature
  split
  · exact (Composed.step _).andThen fun _ => .pure _
  · exact readSource_composed _ _ _ _ _

/-- A provider calls the macro that it asks for. -/
theorem provide_composed (bindings : Bindings) (o : Occurrence) (target : String) :
    Composed ctx ((macroDemand? ctx o).toList.map (·, o.position))
      (provide ctx bindings o target) := by
  unfold provide macroDemand?
  cases o.site with
  | source => exact readSource_composed _ _ _ _ _
  | affix _ => exact readSource_composed _ _ _ _ _
  | word =>
      cases disjointSetOf? ctx o with
      | some set =>
          show Composed ctx _ (callDisjointMacro ctx set bindings o target)
          rw [callDisjointMacro_eq]
          exact .call _ (prepareCoFeature_composed set bindings o) _ _
      | none =>
          show Composed ctx _ (callLemmaMacro ctx o target)
          rw [callLemmaMacro_eq]
          exact .call _ (.pure _) _ _

/-- The calls that a provider may make when its match label is bound. -/
def callsOf (ctx : Lexicons) (occurrences : List Occurrence) (p : Provider) :
    List (MacroDemand × Nat) :=
  if isConsumed occurrences p.label then
    (macroDemand? ctx p.occurrence).toList.map (·, p.occurrence.position)
  else []

theorem bindLabel_composed (occurrences : List Occurrence) (bindings : Bindings) (p : Provider) :
    Composed ctx (callsOf ctx occurrences p) (bindLabel ctx occurrences bindings p) := by
  unfold bindLabel callsOf
  split
  · refine (Composed.claim _ _).andThen fun name => ?_
    refine (provide_composed bindings p.occurrence name).before fun result => ?_
    cases result with
    | ok _ => exact (Composed.var name).andThen fun _ => .pure _
    | error issue => exact (Composed.report issue).andThen fun _ => .pure _
  · exact .pure bindings

/-- The calls that a rule may make, in the order in which its match labels are bound. -/
def demandsOf (ctx : Lexicons) (r : Resolution) : List (MacroDemand × Nat) :=
  (bindingOrder ctx r.providers).flatMap (callsOf ctx r.occurrences)

theorem bindLabels_composed (r : Resolution) :
    Composed ctx (demandsOf ctx r) (bindLabels ctx r) :=
  Composed.foldlM (bindLabel_composed r.occurrences) _ _

/-! ## Local computations -/

/-- The computations that look at nothing but the variables that the rule has claimed: they claim
variables and define them, note messages, and add statements. -/
inductive Local : {α : Type} → Emit α → Prop where
  | pure {α : Type} (a : α) : Local (Pure.pure a : Emit α)
  | bind {α β : Type} {m : Emit α} {f : α → Emit β} (hm : Local m) (hf : ∀ a, Local (f a)) :
      Local (m >>= f)
  | step (s : Step) : Local (emit (.step s))
  | report (issue : Issue) : Local (report issue)
  | claim (base : String) (position : Nat) : Local (claim base position)
  | claimExactly (name : String) : Local (claimExactly name)
  | var (name : String) : Local (defineVariable name)

namespace Local

theorem mapM {f : α → Emit β} (hf : ∀ a, Local (f a)) (l : List α) : Local (l.mapM f) := by
  induction l with
  | nil => exact .pure []
  | cons a l ih =>
      rw [List.mapM_cons]
      exact (hf a).bind fun b => ih.bind fun bs => .pure (b :: bs)

/-- They make no calls. -/
theorem composed {m : Emit α} (h : Local m) : Composed ctx [] m := by
  induction h with
  | pure a => exact .pure a
  | bind _ _ ihm ihf => exact ihm.andThen ihf
  | step s => exact .step s
  | report issue => exact .report issue
  | claim base position => exact .claim base position
  | claimExactly name => exact .claimExactly name
  | var name => exact .var name

end Local

theorem operand?_local (bindings : Bindings) (o : Occurrence) : Local (operand? bindings o) := by
  unfold operand?
  split
  · exact .pure _
  · split
    · exact .pure _
    · split
      · exact .pure _
      · dsimp only
        refine (Local.claimExactly _).bind fun claimed => ?_
        cases claimed with
        | true =>
            refine (Local.var _).bind fun _ => ?_
            refine Local.bind ?_ fun _ => .pure _
            exact (Local.step _).bind fun _ => (Local.step _).bind fun _ => .pure _
        | false => exact .pure _

/-! ## Affixes and lemmas -/

theorem usableFeatures_local (bindings : Bindings) (category : String)
    (forms : String → List Exponent) (occurrences : List Occurrence) :
    Local (usableFeatures bindings category forms occurrences) := by
  induction occurrences with
  | nil => exact .pure []
  | cons o rest ih =>
      unfold usableFeatures
      split
      · exact (Local.report _).bind fun _ => ih
      · refine (operand?_local bindings o).bind fun operand => ?_
        cases operand with
        | none => exact ih
        | some operand => exact ih.bind fun more => .pure _

/-- A variable of its own that a choice sets. -/
theorem chooseStored_local (choice : String → Choice Assignment) (base : String)
    (position : Nat) :
    Local
      (do
        let name ← claim base position
        defineVariable name
        emit (.choose (choice name))
        return some (.var name) : Emit (Option Value)) :=
  (Local.claim base position).bind fun name =>
    (Local.var name).bind fun _ => (Local.step _).bind fun _ => .pure _

theorem emitAffix_local (bindings : Bindings) (position : Nat) (category : String)
    (occurrences : List Occurrence) :
    Local (emitAffix ctx bindings position category occurrences) := by
  unfold emitAffix
  refine (usableFeatures_local bindings category _ occurrences).bind fun usable => ?_
  split
  · exact .pure _
  · dsimp only
    split
    · exact (Local.report _).bind fun _ => .pure _
    · split
      · exact .pure _
      · exact chooseStored_local
          (fun name => affixChoice name usable (affixCandidates usable)) _ _

theorem emitLemma_local (bindings : Bindings) (position : Nat) (category : String)
    (occurrences : List Occurrence) :
    Local (emitLemma ctx bindings position category occurrences) := by
  unfold emitLemma
  refine (usableFeatures_local bindings category _ _).bind fun usable => ?_
  split
  · exact .pure _
  · split
    · dsimp only
      split
      · exact .pure _
      · exact (Local.report _).bind fun _ => .pure _
    · split
      · exact .pure _
      · exact chooseStored_local
          (fun name => lemmaSelection name position usable (lemmaSelections usable)) _ _

/-! ## Words and rules -/

theorem emitAffixes_local (bindings : Bindings) (r : Resolution) (targetIndex position : Nat)
    (category : String) (affixes : List (Affix × Nat)) :
    Local (emitAffixes ctx bindings r targetIndex position category affixes) := by
  unfold emitAffixes
  refine (Local.mapM (fun affix => ?_) affixes).bind fun outputs => .pure _
  exact (emitAffix_local bindings position category _).bind fun output => .pure _

/-- A word that keeps its tags has no affixes. -/
theorem affixes_eq_nil_of_keepsTags {w : TargetWord} (h : keepsTags w = true) : w.affixes = [] := by
  simp only [keepsTags, Bool.and_eq_true, List.isEmpty_iff] at h
  exact h.1.2

theorem emitWord_local (bindings : Bindings) (rule : Rule) (r : Resolution) (w : TargetWord)
    (index position : Nat) : Local (emitWord ctx bindings rule r w index position) := by
  have hword : ∀ chosen : Option Value, Local
      (do
        let outputs ← emitAffixes ctx bindings r index position (rule.targetCategory w)
          w.affixes.zipIdx
        return (⟨chosen.getD (.clip position .target "lem"), wordTags w position outputs⟩ :
          OutputWord)) :=
    fun chosen => (emitAffixes_local bindings r index position _ _).bind fun _ => .pure _
  unfold emitWord
  dsimp only
  split
  · exact (Local.pure none).bind hword
  · exact (emitLemma_local bindings position _ _).bind hword

theorem emitOutput_local (bindings : Bindings) (rule : Rule) (r : Resolution)
    (words : List (TargetWord × Nat)) : Local (emitOutput ctx bindings rule r words) := by
  induction words with
  | nil => exact .pure []
  | cons word rest ih =>
      obtain ⟨w, index⟩ := word
      unfold emitOutput
      split
      · exact ih
      · next position _ =>
        exact (emitWord_local bindings rule r w index position).bind fun word =>
          ih.bind fun more => .pure _

/-- What a compilation gives back: the pattern that was made, and the statements in the end. -/
def Yields (pattern : List String) (m : Emit CompiledRule) : Prop :=
  ∀ e, (m e).1.pattern = pattern ∧ (m e).1.statements = (m e).2.statements

/-- **A compilation** makes the pattern and is composed of the steps from then on. -/
theorem compile_eq (ctx : Lexicons) (rule : Rule) (r : Resolution) :
    ∃ rest : List String → Emit CompiledRule,
      compile ctx rule r = emitPattern ctx rule.source >>= rest ∧
        ∀ pattern,
          Composed ctx (demandsOf ctx r) (rest pattern) ∧ Yields pattern (rest pattern) := by
  refine ⟨_, rfl, fun pattern => ⟨?_, ?_⟩⟩
  · refine (Composed.forM .report _).andThen fun _ => ?_
    refine (bindLabels_composed r).before fun bindings => ?_
    refine (emitOutput_local bindings rule r _).composed.andThen fun output => ?_
    split
    · refine (Composed.gramCat _).andThen fun _ => ?_
      exact .gather fun statements => (⟨pattern, statements, output⟩ : CompiledRule)
    · exact .gather fun statements => (⟨pattern, statements, output⟩ : CompiledRule)
  · -- Only the last part matters for what is given back.
    have hlast : ∀ {α : Type} {m : Emit α} {f : α → Emit CompiledRule},
        (∀ a, Yields pattern (f a)) → Yields pattern (m >>= f) := fun hf e => hf _ _
    refine hlast fun _ => hlast fun bindings => hlast fun output => ?_
    split
    · exact hlast fun _ _ => ⟨rfl, rfl⟩
    · exact fun _ => ⟨rfl, rfl⟩

end TransferRules.Compile
