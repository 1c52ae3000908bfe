import TransferRules.Compile.Emission
import TransferRules.Compile.Provider

/-!
# Bindings

Every match label that something consumes is bound to a variable, which the statements of its
provider set: from the tags of the source word, by a lemma macro, or by the disjoint macro.
Labels of disjoint features come last, because their macro wants the value of the co-feature,
which may be bound by then.

## Main Definitions

* `Bound` — the variable of a match label
* `readSource`, `callLemmaMacro`, `callDisjointMacro` — the statements of a provider
* `bindLabels` — bind the match labels of a rule
* `operand?` — what a consumer compares with
-/

namespace TransferRules.Compile

open TransferRules.Action
open TransferRules.Ordered
open TransferRules.Text

/-- The variable of a match label, the label of the feature that provides its value, and that
feature's fallback. -/
structure Bound where
  name : String
  feature : String
  fallback : Option String
  deriving Repr, DecidableEq

/-- The match labels that are bound. -/
abbrev Bindings := List (String × Bound)

/-- The variable of a match label. -/
def Bindings.find? (b : Bindings) (label : String) : Option Bound :=
  (List.find? (fun entry => entry.1 == label) b).map Prod.snd

/-- The variable in which the co-feature of a disjoint set is found: of several bound to it, the
first by name. -/
def Bindings.coVariable? (b : Bindings) (coFeature : String) : Option String :=
  (sortStrings ((b.filter fun entry => entry.2.feature == coFeature).map fun entry =>
    entry.2.name)).head?

/-- Set a variable to the value that a gloss at some position expresses, and clear it for a
gloss that is not listed. -/
def glossChoice (position : Nat) (part target : String)
    (groups : List (String × List String)) : Choice Assignment where
  branches := groups.map fun (value, glosses) =>
    (.any (glosses.map fun gloss => ⟨.clip position .source part, .tag gloss⟩),
      ⟨target, .tag value⟩)
  otherwise := some (.clear target)

/-- The statement that sets a variable from the attribute found for a feature: the value of the
feature itself is clipped, a gloss is looked up. -/
def sourceStatement (x : Lexicon) (key : FeatureKey) (position : Nat) (part target : String) :
    Statement :=
  if key.isAffix then
    .choose (glossChoice position part target
      (groupByValue (x.affixes key.category key.label)))
  else .assign target (.clip position .source part)

/-- Set a variable from the tags of the source word at a position.  Of the feature itself and
its affixes, the first that the lexicon knows is read; `affixFirst` says which is tried
first. -/
def readSource (ctx : Lexicons) (position : Nat) (category label target : String)
    (affixFirst : Bool) : Emit (Except Issue Unit) := do
  let first : FeatureKey := ⟨category, label, affixFirst, true⟩
  let second : FeatureKey := ⟨category, label, !affixFirst, true⟩
  match ← tryWorkspace fun w => w.ensureAttribute ctx.source { key := first } with
  | .ok part =>
    emit (sourceStatement ctx.source first position part target)
    return .ok ()
  | .error _ =>
    match ← tryWorkspace fun w => w.ensureAttribute ctx.source { key := second } with
    | .ok part =>
      emit (sourceStatement ctx.source second position part target)
      return .ok ()
    | .error _ => return .error (.unresolvedFeature category label)

/-- Set a variable by the lemma macro of a feature. -/
def callLemmaMacro (ctx : Lexicons) (o : Occurrence) (target : String) :
    Emit (Except Issue Unit) := do
  match ← tryWorkspace fun w => w.ensureLemmaMacro ctx.target o.category o.feature.label with
  | .error issue => return .error issue
  | .ok handle =>
    emit (.call handle.name o.position)
    emit (.assign target (.var handle.result))
    return .ok ()

/-- Set a variable by the macro of a disjoint set, after the variable of the co-feature: to what
is bound to the co-feature, or else to what the source word says. -/
def callDisjointMacro (ctx : Lexicons) (set : DisjointSet) (bindings : Bindings) (o : Occurrence)
    (target : String) : Emit (Except Issue Unit) := do
  match ← tryWorkspace fun w => w.ensureDisjointMacro ctx.target set with
  | .error issue => return .error issue
  | .ok handle =>
    let coVariable := (disjointNames set).2.2
    let prepared ←
      match bindings.coVariable? set.coFeature with
      | some bound =>
        emit (.assign coVariable (.var bound))
        pure (.ok ())
      | none => readSource ctx o.position o.sourceCategory set.coFeature coVariable true
    match prepared with
    | .error issue => return .error issue
    | .ok () =>
      emit (.call handle.name o.position)
      emit (.assign target (.var handle.result))
      return .ok ()

/-- The disjoint set of which an occurrence is part. -/
def disjointSetOf? (ctx : Lexicons) (o : Occurrence) : Option DisjointSet :=
  if o.site = .word then ctx.disjoint.filter fun set => set.name == o.feature.label else none

/-- The statements of a provider. -/
def provide (ctx : Lexicons) (bindings : Bindings) (o : Occurrence) (target : String) :
    Emit (Except Issue Unit) :=
  match o.site with
  | .source => readSource ctx o.position o.sourceCategory o.feature.label target false
  | .affix _ => readSource ctx o.position o.sourceCategory o.feature.label target true
  | .word =>
    match disjointSetOf? ctx o with
    | some set => callDisjointMacro ctx set bindings o target
    | none => callLemmaMacro ctx o target

/-- Whether some occurrence uses the value of a match label. -/
def isConsumed (occurrences : List Occurrence) (label : String) : Bool :=
  occurrences.any fun o => o.label? == some label && o.isConsumer

/-- Bind the match label of a provider, if it is consumed.  A label whose provider cannot be
resolved stays unbound, and that is reported. -/
def bindLabel (ctx : Lexicons) (occurrences : List Occurrence) (bindings : Bindings)
    (p : Provider) : Emit Bindings := do
  if isConsumed occurrences p.label then
    let o := p.occurrence
    let name ← claim ("v_" ++ identifier (o.category ++ "_" ++ o.feature.label)) o.position
    match ← provide ctx bindings o name with
    | .ok () =>
      defineVariable name
      return bindings ++ [(p.label, ⟨name, o.feature.label, o.feature.fallback⟩)]
    | .error issue =>
      report issue
      return bindings
  else return bindings

/-- The providers in the order in which their labels are bound: disjoint features last. -/
def bindingOrder (ctx : Lexicons) (providers : List Provider) : List Provider :=
  providers.filter (fun p => (disjointSetOf? ctx p.occurrence).isNone) ++
    providers.filter fun p => (disjointSetOf? ctx p.occurrence).isSome

/-- Bind the match labels of a rule. -/
def bindLabels (ctx : Lexicons) (r : Resolution) : Emit Bindings :=
  (bindingOrder ctx r.providers).foldlM (bindLabel ctx r.occurrences) []

/-- What a consumer compares with: the content of a variable, or a given value. -/
inductive Operand where
  | stored (name : String)
  | given (value : String)
  deriving Repr, DecidableEq

namespace Operand

/-- The variable of an operand. -/
def name? : Operand → Option String
  | stored name => some name
  | given _ => none

/-- The given value of an operand. -/
def value? : Operand → Option String
  | stored _ => none
  | given value => some value

end Operand

/-- Set a variable to the value of another one, or to a fallback if that is empty. -/
def copyWithFallback (name copied fallback : String) : List Statement :=
  [.assign name (.var copied),
    .choose ⟨[(.all [⟨.var name, .lit ""⟩], ⟨name, .tag fallback⟩)], none⟩]

/-- What an occurrence compares with, nothing if its match label is not bound.  With a fallback,
its own or the provider's, a copy of the variable is used. -/
def operand? (bindings : Bindings) (o : Occurrence) : Emit (Option Operand) := do
  match o.feature.binding with
  | .fixed value => return some (.given value)
  | .agreement label =>
    match bindings.find? label with
    | none => return none
    | some bound =>
      match o.feature.fallback <|> bound.fallback with
      | none => return some (.stored bound.name)
      | some fallback =>
        let name := identifier (bound.name ++ "_or_" ++ fallback)
        if ← claimExactly name then
          defineVariable name
          (copyWithFallback name bound.name fallback).forM emit
        return some (.stored name)

end TransferRules.Compile
