import TransferRules.Proofs.Compile.Form
import TransferRules.Proofs.Compile.Precedence

/-!
# The form of compiled rules

A compiled rule is an element of the form that the engine expects.  Its pattern has an item for
every source word, its statements only call upon words of the pattern, and its output has a word for
every target word, in their order.  A word of the output takes parts only from the word of the
pattern that it translates; its first tag is followed by what the affixes before the stem put out,
and then by what those behind it do.

What an affix puts out depends on the variables that are in use when it comes to it, so it is the
run of emissions from the binding of the labels on that says which output is the output of which
affix.

All target words translate a source word in a well-formed rule, so that none is left out and the
words of the output are numbered without a gap.  There are no more of them than source words, hence
every blank stands behind a word of the pattern.

## Main Definitions

* `Traverses` — a run over a list that threads a state
* `IsLemmaOutput`, `IsAffixOutput` — what is put out for the lemma of a word and for an affix
* `outputsOn` — what the affixes on one side put out
* `IsWordOf`, `IsRuleOf` — the form of a word of the output, and of a rule

## Main Statements

* `traverses_mapM`, `Traverses.keeps` — an emission over a list is such a run, and keeps the form
* `compile_isRuleOf` — a well-formed rule is compiled to this form
-/

namespace TransferRules.Compile

open TransferRules.Action
open TransferRules.Action.Written
open TransferRules.Markup
open TransferRules.Ordered

variable {ctx : Lexicons} {rule : Rule} {r : Resolution}

/-! ## Runs over a list -/

/-- A run over a list that threads a state: every entry is taken in the state that the entries
before it have left, and has one result. -/
inductive Traverses {α β σ : Type} (step : α → σ → β → σ → Prop) :
    List α → σ → List β → σ → Prop where
  | nil (s : σ) : Traverses step [] s [] s
  | cons {a : α} {as : List α} {b : β} {bs : List β} {s s' s'' : σ} (hstep : step a s b s')
      (hrest : Traverses step as s' bs s'') : Traverses step (a :: as) s (b :: bs) s''

namespace Traverses

variable {α β σ : Type} {step : α → σ → β → σ → Prop} {as : List α} {bs : List β} {s s' : σ}

theorem length_eq (h : Traverses step as s bs s') : as.length = bs.length := by
  induction h with
  | nil => rfl
  | cons _ _ ih => rw [List.length_cons, List.length_cons, ih]

/-- The results may be seen in another way. -/
theorem map {γ : Type} {step' : α → σ → γ → σ → Prop} {f : β → γ}
    (h : Traverses step as s bs s') (hf : ∀ a s b s', step a s b s' → step' a s (f b) s') :
    Traverses step' as s (bs.map f) s' := by
  induction h with
  | nil => exact .nil _
  | cons hstep _ ih => exact .cons (hf _ _ _ _ hstep) ih

theorem imp {step' : α → σ → β → σ → Prop} (h : Traverses step as s bs s')
    (hstep : ∀ a s b s', step a s b s' → step' a s b s') : Traverses step' as s bs s' :=
  List.map_id bs ▸ h.map (f := id) hstep

/-- Entries and results one by one. -/
theorem forall₂ {R : α → β → Prop} (h : Traverses step as s bs s')
    (hR : ∀ a s b s', step a s b s' → R a b) : List.Forall₂ R as bs := by
  induction h with
  | nil => exact .nil
  | cons hstep _ ih => exact .cons (hR _ _ _ _ hstep) ih

end Traverses

/-- An emission over a list threads the state of compiling. -/
theorem traverses_mapM {α β : Type} (f : α → Emit β) (l : List α) (e : Emission) :
    Traverses (fun a e b e' => f a e = (b, e')) l e (l.mapM f e).1 (l.mapM f e).2 := by
  induction l generalizing e with
  | nil => exact .nil e
  | cons a l ih =>
      rw [List.mapM_cons]
      exact .cons rfl (ih (f a e).2)

/-- If the emission for every entry keeps the form, so does the run. -/
theorem Traverses.keeps {α β : Type} {allowed : Nat → Prop} {f : α → Emit β} {P : β → Prop}
    {l : List α} {bs : List β} {e e' : Emission}
    (h : Traverses (fun a e b e' => f a e = (b, e')) l e bs e')
    (hf : ∀ a, Keeps ctx allowed (f a) P) (he : InForm ctx allowed e) :
    InForm ctx allowed e' ∧ ∀ b ∈ bs, P b := by
  induction h with
  | nil => exact ⟨he, nofun⟩
  | @cons a _ b _ e e₁ _ hstep _ ih =>
      have hkept := hf a e he
      rw [hstep] at hkept
      obtain ⟨hform, hrest⟩ := ih hkept.1
      exact ⟨hform, List.forall_mem_cons.2 ⟨hkept.2, hrest⟩⟩

/-! ## Elements -/

/-- What is put out for the lemma of a target word: a head keeps the lemma of the word that it
translates, and so does another word if there is no choice of a lemma. -/
inductive IsLemmaOutput (ctx : Lexicons) (bindings : Bindings) (rule : Rule) (r : Resolution)
    (w : TargetWord) (index position : Nat) : Emission → Value → Emission → Prop where
  | head (e : Emission) (hhead : w.isHead = true) :
      IsLemmaOutput ctx bindings rule r w index position e (.clip position .target "lem") e
  | other {e e' : Emission} {chosen : Option Value} (hother : w.isHead = false)
      (hemit : emitLemma ctx bindings position (rule.targetCategory w)
        (((occurrencesAt r index .word).filter fun (_, i) => !r.provides i).map Prod.fst) e =
          (chosen, e')) :
      IsLemmaOutput ctx bindings rule r w index position e
        (chosen.getD (.clip position .target "lem")) e'

/-- What an affix of the target word with the given place puts out, in the states before and after
it. -/
def IsAffixOutput (ctx : Lexicons) (bindings : Bindings) (r : Resolution)
    (targetIndex position : Nat) (category : String) (affix : Affix × Nat) (e : Emission)
    (output : Option Value) (e' : Emission) : Prop :=
  emitAffix ctx bindings position category
    ((occurrencesAt r targetIndex (.affix affix.2)).map Prod.fst) e = (output, e')

/-- What the affixes on one side of the stem put out, in the order of the affixes. -/
def outputsOn (side : AffixSide) (affixes : List Affix) (outputs : List (Option Value)) :
    List Value :=
  (affixes.zip outputs).filterMap fun (affix, output) =>
    if affix.side = side then output else none

/-- A word of the output: a lemma and a first tag, which take parts only from the word of the
pattern that is translated, and the outputs of the affixes, which take no parts.  The lemma comes
first and then the affixes, in their order. -/
inductive IsWordOf (ctx : Lexicons) (bindings : Bindings) (rule : Rule) (r : Resolution) :
    TargetWord × Nat → Emission → Element → Emission → Prop where
  | mk {w : TargetWord} {index position : Nat} {e e₁ e₂ : Emission} {lemmaValue first : Value}
      {outputs : List (Option Value)} (hposition : rule.position? w.id = some position)
      (hlemma : IsLemmaOutput ctx bindings rule r w index position e lemmaValue e₁)
      (hlemmaForm : IsValue (· = position) lemmaValue.toElement)
      (hfirst : IsValue (· = position) first.toElement)
      (houtputs : Traverses
        (IsAffixOutput ctx bindings r index position (rule.targetCategory w))
        w.affixes.zipIdx e₁ outputs e₂)
      (hvalues : ∀ output ∈ outputs, ∀ v ∈ output, IsValue (fun _ => False) v.toElement) :
      IsWordOf ctx bindings rule r (w, index) e
        (element "lu" [] (lemmaValue.toElement :: first.toElement ::
          (outputsOn .before w.affixes outputs ++ outputsOn .after w.affixes outputs).map
            Value.toElement)) e₂

/-- A compiled rule: an item for every source word, statements about words of the pattern, and then
a word for every target word, with blanks between them.  The words are put out in their order, once
the labels are bound. -/
inductive IsRuleOf (ctx : Lexicons) (rule : Rule) (r : Resolution) : Element → Prop where
  | mk (name : String) {categories : List String} {statements words : List Element}
      {bindings : Bindings} {e e₁ e₂ : Emission}
      (hpattern : categories.length = rule.source.length)
      (hstatements : ∀ s ∈ statements,
        IsStatement (fun position => 1 ≤ position ∧ position ≤ rule.source.length) s)
      (hbindings : bindLabels ctx r e = (bindings, e₁))
      (hwords : Traverses (IsWordOf ctx bindings rule r) rule.target.zipIdx e₁ words e₂)
      (hlength : words.length ≤ rule.source.length) :
      IsRuleOf ctx rule r
        (element "rule" [("comment", name)]
          [element "pattern" []
            (categories.map fun category => element "pattern-item" [("n", category)] []),
          element "action" [] (statements ++ [element "out" [] (spaced 0 words)])])

/-! ## Words of the output -/

variable {allowed : Nat → Prop} {bindings : Bindings} {w : TargetWord} {index position : Nat}
  {e e' : Emission}

/-- A word of the output that can be written in the form. -/
structure WordFits (ctx : Lexicons) (bindings : Bindings) (rule : Rule) (r : Resolution)
    (w : TargetWord) (index position : Nat) (e : Emission) (word : OutputWord) (e' : Emission) :
    Prop where
  lemmaValue : word.lemmaValue.Within (· = position)
  emitted : ∃ first outputs e₁,
    IsLemmaOutput ctx bindings rule r w index position e word.lemmaValue e₁ ∧
    Traverses (IsAffixOutput ctx bindings r index position (rule.targetCategory w))
      w.affixes.zipIdx e₁ outputs e' ∧
    word.tags = first ::
      (outputsOn .before w.affixes outputs ++ outputsOn .after w.affixes outputs) ∧
    first.Within (· = position) ∧
    ∀ output ∈ outputs, ∀ v ∈ output, v.Within fun _ => False

theorem WordFits.isWordOf {word : OutputWord}
    (h : WordFits ctx bindings rule r w index position e word e')
    (hposition : rule.position? w.id = some position) :
    IsWordOf ctx bindings rule r (w, index) e word.toElement e' := by
  obtain ⟨first, outputs, e₁, hlemma, houtputs, htags, hfirst, hvalues⟩ := h.emitted
  rw [OutputWord.toElement, htags, List.map_cons, List.map_cons]
  exact .mk hposition hlemma h.lemmaValue.isValue hfirst.isValue houtputs
    fun output houtput v hv => (hvalues output houtput v hv).isValue

/-- Outputs with their sides are the outputs of the affixes one by one, and on each side there are
those of the affixes on this side. -/
theorem exists_outputs {R : Affix × Nat → Emission → Option Value → Emission → Prop}
    {affixes : List (Affix × Nat)} {sided : List (Option (AffixSide × Value))}
    (h : Traverses (fun affix e entry e' =>
      ∃ output : Option Value, entry = output.map (affix.1.side, ·) ∧ R affix e output e')
        affixes e sided e') :
    ∃ outputs, Traverses R affixes e outputs e' ∧
      ∀ side, onSide side (sided.filterMap id) =
        outputsOn side (affixes.map Prod.fst) outputs := by
  induction h with
  | nil => exact ⟨[], .nil _, fun side => rfl⟩
  | @cons affix affixes _ sided _ _ _ hfirst _ ih =>
      obtain ⟨output, rfl, hR⟩ := hfirst
      obtain ⟨outputs, houtputs, hsides⟩ := ih
      refine ⟨output :: outputs, .cons hR houtputs, fun side => ?_⟩
      have hside := hsides side
      unfold onSide outputsOn at hside ⊢
      rw [List.map_cons, List.zip_cons_cons, List.filterMap_cons, List.filterMap_cons, ← hside]
      cases output with
      | none => simp
      | some value =>
          by_cases heq : affix.1.side = side
          · simp [heq]
          · simp [heq]

/-- **The affixes are emitted** one after another, and their outputs take no parts. -/
theorem emitAffixes_keeps (affixes : List (Affix × Nat)) (category : String)
    (he : InForm ctx allowed e) :
    InForm ctx allowed (emitAffixes ctx bindings r index position category affixes e).2 ∧
      ∃ outputs, Traverses (IsAffixOutput ctx bindings r index position category) affixes e outputs
          (emitAffixes ctx bindings r index position category affixes e).2 ∧
        (∀ output ∈ outputs, ∀ v ∈ output, v.Within fun _ => False) ∧
        ∀ side, onSide side (emitAffixes ctx bindings r index position category affixes e).1 =
          outputsOn side (affixes.map Prod.fst) outputs := by
  let emitSided : Affix × Nat → Emit (Option (AffixSide × Value)) := fun affix => do
    let output ← emitAffix ctx bindings position category
      ((occurrencesAt r index (.affix affix.2)).map Prod.fst)
    return output.map fun value => (affix.1.side, value)
  have hsided : Traverses (fun (affix : Affix × Nat) e entry e' => ∃ output : Option Value,
      entry = output.map (affix.1.side, ·) ∧
        IsAffixOutput ctx bindings r index position category affix e output e')
      affixes e (affixes.mapM emitSided e).1 (affixes.mapM emitSided e).2 := by
    refine (traverses_mapM emitSided affixes e).imp fun affix e entry e' hstep => ?_
    obtain ⟨hentry, hstate⟩ := Prod.mk.inj hstep
    exact ⟨_, hentry.symm, Prod.ext rfl hstate⟩
  obtain ⟨outputs, houtputs, hsides⟩ := exists_outputs hsided
  obtain ⟨hform, hvalues⟩ := Traverses.keeps houtputs
    (fun affix => emitAffix_keeps bindings position category _) he
  exact ⟨hform, outputs, houtputs, hvalues, hsides⟩

/-- The first tag takes a part only from the word that is translated, and then come the outputs of
the affixes: a head that keeps its tags has none. -/
theorem exists_first (w : TargetWord) (position : Nat) {sided : List (AffixSide × Value)}
    {outputs : List (Option Value)}
    (hsides : ∀ side, onSide side sided = outputsOn side w.affixes outputs) :
    ∃ first : Value, wordTags w position sided = first ::
        (outputsOn .before w.affixes outputs ++ outputsOn .after w.affixes outputs) ∧
      first.Within (· = position) := by
  unfold wordTags
  split
  · next hkeeps =>
    rw [affixes_eq_nil_of_keepsTags hkeeps]
    exact ⟨_, rfl, rfl⟩
  · rw [hsides, hsides]
    refine ⟨_, rfl, ?_⟩
    cases w.category with
    | none => exact rfl
    | some category => exact trivial

/-- **A word of the output is emitted** in form. -/
theorem emitWord_keeps (hposition : allowed position) (he : InForm ctx allowed e) :
    InForm ctx allowed (emitWord ctx bindings rule r w index position e).2 ∧
      WordFits ctx bindings rule r w index position e
        (emitWord ctx bindings rule r w index position e).1
        (emitWord ctx bindings rule r w index position e).2 := by
  -- Whatever the lemma is, the tags come after it.
  have hword : ∀ {lemmaValue : Value} {e₁ : Emission},
      IsLemmaOutput ctx bindings rule r w index position e lemmaValue e₁ →
      lemmaValue.Within (· = position) → InForm ctx allowed e₁ →
      let sided := emitAffixes ctx bindings r index position (rule.targetCategory w)
        w.affixes.zipIdx e₁
      InForm ctx allowed sided.2 ∧ WordFits ctx bindings rule r w index position e
        ⟨lemmaValue, wordTags w position sided.1⟩ sided.2 := by
    intro lemmaValue e₁ hlemma hwithin he₁ sided
    obtain ⟨hform, outputs, houtputs, hvalues, hsides⟩ :=
      emitAffixes_keeps w.affixes.zipIdx (rule.targetCategory w) he₁
    rw [List.zipIdx_map_fst] at hsides
    obtain ⟨first, htags, hfirst⟩ := exists_first w position hsides
    exact ⟨hform, hwithin, first, outputs, e₁, hlemma, houtputs, htags, hfirst, hvalues⟩
  unfold emitWord
  cases hhead : w.isHead with
  | true => exact hword (.head e hhead) rfl he
  | false =>
      let emitted := emitLemma ctx bindings position (rule.targetCategory w)
        (((occurrencesAt r index .word).filter fun (_, i) => !r.provides i).map Prod.fst) e
      have hkept : InForm ctx allowed emitted.2 ∧ ∀ v ∈ emitted.1, v.Within fun _ => False :=
        emitLemma_keeps hposition bindings _ _ e he
      have hlemma : IsLemmaOutput ctx bindings rule r w index position e
          (emitted.1.getD (.clip position .target "lem")) emitted.2 := .other hhead rfl
      have hwithin : (emitted.1.getD (.clip position .target "lem")).Within (· = position) := by
        cases hchosen : emitted.1 with
        | none => exact rfl
        | some v => exact (hkept.2 v hchosen).mono nofun
      have hemitted := hword hlemma hwithin hkept.1
      exact hemitted

/-- The words of the output are those of the target words one by one, if all of these have a
position. -/
theorem emitOutput_keeps (hallowed : ∀ id position, rule.position? id = some position →
      allowed position) {words : List (TargetWord × Nat)}
    (hwords : ∀ w ∈ words, (rule.position? w.1.id).isSome = true) (he : InForm ctx allowed e) :
    InForm ctx allowed (emitOutput ctx bindings rule r words e).2 ∧
      Traverses (fun w e word e' => word.1 = w.2 ∧ ∃ position,
        rule.position? w.1.id = some position ∧
          WordFits ctx bindings rule r w.1 w.2 position e word.2 e') words e
        (emitOutput ctx bindings rule r words e).1 (emitOutput ctx bindings rule r words e).2 := by
  induction words generalizing e with
  | nil => exact ⟨he, .nil e⟩
  | cons w words ih =>
      obtain ⟨position, hposition⟩ := Option.isSome_iff_exists.1 (hwords w List.mem_cons_self)
      unfold emitOutput
      rw [hposition]
      obtain ⟨hform, hword⟩ := emitWord_keeps (hallowed _ _ hposition) he
      obtain ⟨hrest, hmore⟩ := ih (fun w hw => hwords w (List.mem_cons_of_mem _ hw)) hform
      exact ⟨hrest, .cons ⟨rfl, position, hposition, hword⟩ hmore⟩

/-! ## Rules -/

theorem emitPattern_keeps (words : List SourceWord) :
    Keeps ctx allowed (emitPattern ctx words) fun pattern => pattern.length = words.length := by
  refine (Keeps.mapM (R := fun _ _ => True) words fun w _ e he => ?_).imp
    fun pattern hpattern => hpattern.length_eq.symm
  exact ⟨⟨Request.knownTo (.needCategory _ w.categoryName w.fixedValues) he.known, he.statements⟩,
    trivial⟩

/-- A compiled rule that can be written in the form. -/
structure RuleFits (ctx : Lexicons) (rule : Rule) (r : Resolution) (compiled : CompiledRule) :
    Prop where
  pattern : compiled.pattern.length = rule.source.length
  statements : ∀ s ∈ compiled.statements,
    s.Fits fun position => 1 ≤ position ∧ position ≤ rule.source.length
  output : ∃ bindings e e₁ e₂, bindLabels ctx r e = (bindings, e₁) ∧
    Traverses (fun w e word e' => word.1 = w.2 ∧ ∃ position,
      rule.position? w.1.id = some position ∧
        WordFits ctx bindings rule r w.1 w.2 position e word.2 e') rule.target.zipIdx e₁
      compiled.output e₂

theorem RuleFits.isRuleOf {compiled : CompiledRule} (h : RuleFits ctx rule r compiled)
    (hlength : rule.target.length ≤ rule.source.length) (name : String) :
    IsRuleOf ctx rule r (compiled.toElement name) := by
  obtain ⟨bindings, e, e₁, e₂, hbindings, houtput⟩ := h.output
  have hnumbers : compiled.output.map Prod.fst = List.range' 0 compiled.output.length := by
    rw [← houtput.length_eq, List.length_zipIdx, ← List.zipIdx_map_snd 0 rule.target]
    refine (List.forall₂_eq_eq_eq.le _ _ ?_).symm
    rw [List.forall₂_map_left_iff, List.forall₂_map_right_iff]
    exact houtput.forall₂ fun _ _ _ _ hword => hword.1.symm
  unfold CompiledRule.toElement CompiledRule.patternElement
  rw [outputElements_eq_spaced hnumbers]
  refine .mk name h.pattern (fun s hs => ?_) hbindings (houtput.map fun w e word e' hword => ?_) ?_
  · obtain ⟨statement, hstatement, rfl⟩ := List.mem_map.1 hs
    exact (h.statements statement hstatement).isStatement
  · obtain ⟨-, position, hposition, hfits⟩ := hword
    exact hfits.isWordOf hposition
  · rw [List.length_map, ← houtput.length_eq, List.length_zipIdx]
    exact hlength

theorem compile_keeps (hpositions : ∀ p ∈ r.providers,
      1 ≤ p.occurrence.position ∧ p.occurrence.position ≤ rule.source.length)
    (htranslated : ∀ w ∈ rule.target, (rule.position? w.id).isSome = true) :
    Keeps ctx (fun position => 1 ≤ position ∧ position ≤ rule.source.length) (compile ctx rule r)
      (RuleFits ctx rule r) := by
  unfold compile
  refine (emitPattern_keeps rule.source).bind fun pattern hpattern => ?_
  refine (Keeps.forM _ fun issue _ => report_keeps issue).bind fun _ _ => ?_
  intro e he
  let bound := bindLabels ctx r e
  let words := emitOutput ctx bound.1 rule r rule.target.zipIdx bound.2
  obtain ⟨hform, houtput⟩ := emitOutput_keeps (r := r) (fun _ _ => Rule.position?_bounds)
    (fun w hw => htranslated w.1 (List.fst_mem_of_mem_zipIdx hw))
    (bindLabels_keeps hpositions e he).1
  have hlast : Keeps ctx (fun position => 1 ≤ position ∧ position ≤ rule.source.length)
      (do
        let e ← get
        return ({ pattern, statements := e.statements, output := words.1 } : CompiledRule))
      (RuleFits ctx rule r) := by
    intro e' he'
    exact ⟨he', hpattern, he'.statements, bound.1, e, bound.2, words.2, rfl, houtput⟩
  rw [bind_apply, bind_apply]
  split
  · refine ((modifyWorkspace_keeps fun w hw => ?_).bind fun _ _ => hlast) words.2 hform
    exact Request.knownTo (.needGramCat w _) hw
  · exact hlast words.2 hform

/-- Where something occurs in a rule there is a source word. -/
theorem position_of_mem_occurrences {o : Occurrence} (h : o ∈ rule.occurrences) :
    1 ≤ o.position ∧ o.position ≤ rule.source.length := by
  rcases List.mem_append.1 h with h | h
  · obtain ⟨⟨v, index⟩, hv, ho⟩ := List.mem_flatMap.1 h
    obtain ⟨feature, -, rfl⟩ := List.mem_map.1 ho
    exact ⟨Nat.le_add_left 1 index, List.snd_lt_of_mem_zipIdx hv⟩
  · obtain ⟨⟨w, index⟩, -, ho⟩ := List.mem_flatMap.1 h
    unfold Rule.targetOccurrences at ho
    dsimp only at ho
    cases hposition : rule.position? w.id with
    | none =>
        rw [hposition] at ho
        cases ho
    | some position =>
        rw [hposition] at ho
        obtain ⟨feature, -, rfl⟩ := List.mem_map.1 ho
        exact Rule.position?_bounds hposition

/-- **A well-formed rule is compiled to the form** that the engine expects, if the lexicon knows
values of the features that have been resolved before. -/
theorem compile_isRuleOf (hrule : rule.WellFormed) (hresolve : rule.resolve = .ok r) {e : Emission}
    (he : e.workspace.KnownTo ctx.source) (hstatements : e.statements = []) (name : String) :
    IsRuleOf ctx rule r ((compile ctx rule r e).1.toElement name) := by
  obtain ⟨-, -, hproviders⟩ := Rule.resolve_eq_ok hresolve
  refine ((compile_keeps (fun p hp => ?_) fun w hw => ?_) e ⟨he, ?_⟩).2.isRuleOf
    hrule.length_target_le name
  · exact position_of_mem_occurrences (hproviders p hp).1
  · obtain ⟨position, hposition, -⟩ := hrule.exists_position hw
    rw [hposition]
    rfl
  · rw [hstatements]
    exact nofun

end TransferRules.Compile
