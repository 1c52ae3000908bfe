import TransferRules.Compile.LemmaChoice

/-!
# Compiled rules

A rule is compiled in two parts.  Whether it can be compiled at all is decided by `Rule.resolve`
alone, before anything is changed; from then on nothing fails.  `compile` then defines the
categories of the pattern, binds the match labels, and puts together the words of the output.

## Main Definitions

* `emitWord` — a word of the output
* `compile` — the compiled form of a rule
-/

namespace TransferRules.Compile

open TransferRules.Action
open TransferRules.Ordered
open TransferRules.Transfer

/-- The categories of the pattern, one for every source word. -/
def emitPattern (ctx : Lexicons) (words : List SourceWord) : Emit (List String) :=
  words.mapM fun w =>
    modifyGet fun e =>
      let (name, workspace) := e.workspace.ensureCategory ctx.source w.categoryName w.fixedValues
      (name, { e with workspace })

/-- The issues of features on the head word that are of no use: a head chooses no lemma, so its
own features can only provide values. -/
def ignoredFeatures (rule : String) (r : Resolution) : List Issue :=
  (r.occurrences.zipIdx.filter fun (o, index) =>
    o.onHead && o.site == .word && !r.provides index).map fun (o, _) =>
      .ignoredHeadFeature rule o.wordId o.feature.label

/-- The occurrences on a site of the target word with the given place. -/
def occurrencesAt (r : Resolution) (targetIndex : Nat) (site : Site) : List (Occurrence × Nat) :=
  r.occurrences.zipIdx.filter fun (o, _) => o.targetIndex == some targetIndex && o.site == site

/-- The outputs of the affixes of a target word, with their sides. -/
def emitAffixes (ctx : Lexicons) (bindings : Bindings) (r : Resolution) (targetIndex : Nat)
    (position : Nat) (category : String) (affixes : List (Affix × Nat)) :
    Emit (List (AffixSide × Value)) := do
  let outputs ← affixes.mapM fun (affix, index) => do
    let occurrences := (occurrencesAt r targetIndex (.affix index)).map Prod.fst
    let output ← emitAffix ctx bindings position category occurrences
    return output.map fun value => (affix.side, value)
  return outputs.filterMap id

/-- The values on one side of the stem, in order. -/
def onSide (side : AffixSide) (outputs : List (AffixSide × Value)) : List Value :=
  (outputs.filter fun output => output.1 == side).map Prod.snd

/-- Whether a target word puts out all tags of the word that it translates: the head does, if
nothing about it changes. -/
def keepsTags (w : TargetWord) : Bool := w.isHead && w.affixes.isEmpty && w.category.isNone

/-- Whether a target word puts out the category that the word it translates has. -/
def readsCategory (w : TargetWord) : Bool := !keepsTags w && w.category.isNone

/-- The tags of a target word: its category, then the affixes before and after the stem. -/
def wordTags (w : TargetWord) (position : Nat) (outputs : List (AffixSide × Value)) : List Value :=
  if keepsTags w then [.clip position .target "tags"]
  else
    (match w.category with
      | some category => Value.tag category
      | none => Value.clip position .target gramCatName) ::
    (onSide .before outputs ++ onSide .after outputs)

/-- A word of the output, at its place in the target phrase. -/
def emitWord (ctx : Lexicons) (bindings : Bindings) (rule : Rule) (r : Resolution)
    (w : TargetWord) (index position : Nat) : Emit OutputWord := do
  let category := rule.targetCategory w
  let chosen ←
    if w.isHead then pure none
    else
      let consumers := (occurrencesAt r index .word).filter fun (_, i) => !r.provides i
      emitLemma ctx bindings position category (consumers.map Prod.fst)
  let outputs ← emitAffixes ctx bindings r index position category w.affixes.zipIdx
  return ⟨chosen.getD (.clip position .target "lem"), wordTags w position outputs⟩

/-- The words of the output.  A target word that translates no source word is left out. -/
def emitOutput (ctx : Lexicons) (bindings : Bindings) (rule : Rule) (r : Resolution) :
    List (TargetWord × Nat) → Emit (List (Nat × OutputWord))
  | [] => return []
  | (w, index) :: rest => do
    match rule.position? w.id with
    | none => emitOutput ctx bindings rule r rest
    | some position =>
      let word ← emitWord ctx bindings rule r w index position
      let more ← emitOutput ctx bindings rule r rest
      return (index, word) :: more

/-- The grammatical categories that a rule may put out. -/
def ruleCategories (ctx : Lexicons) (rule : Rule) : StringSet :=
  StringSet.ofList
    (ctx.source.categoryNames ++ ctx.target.categoryNames ++
      rule.source.filterMap SourceWord.category ++ rule.target.filterMap TargetWord.category)

/-- Whether the output of a rule reads the category of some word. -/
def needsGramCat (rule : Rule) : Bool :=
  rule.target.any fun w => (rule.position? w.id).isSome && readsCategory w

/-- Compile a rule whose providers are resolved. -/
def compile (ctx : Lexicons) (rule : Rule) (r : Resolution) : Emit CompiledRule := do
  let pattern ← emitPattern ctx rule.source
  (ignoredFeatures rule.name r).forM report
  let bindings ← bindLabels ctx r
  let output ← emitOutput ctx bindings rule r rule.target.zipIdx
  if needsGramCat rule then
    modifyWorkspace fun w => w.ensureGramCat (ruleCategories ctx rule)
  let e ← get
  return { pattern, statements := e.statements, output }

end TransferRules.Compile
