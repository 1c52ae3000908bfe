import TransferRules.Compile.Rule
import TransferRules.Proofs.Lexicon.Relisting

/-!
# Compiling with relisted lexicons

A rule is compiled to the same with two lexicons that differ in the order of their lists.  What is
asked of the workspace does not show the order.  Affixes and lemmas do see the exponents of their
features in the order of the lexicon, but they look values up by form, and sort what they list.

## Main Definitions

* `Lexicons.Relisted` — the same lexicons with their lists in another order
* `Usable.Alike` — usable features that cannot be told apart by looking up and sorting
* `Alike` — computations with related results that leave the same behind

## Main Statements

* `usableFeatures_alike` — usable features can only be told apart by the order of their exponents
* `affixCandidates_alike`, `lemmaSelections_alike` — and nobody looks at that
* `compile_relisted` — so a rule is compiled to the same
-/

namespace TransferRules.Compile

open TransferRules.Action
open TransferRules.Ordered

/-- The same lexicons with their lists in another order. -/
structure Lexicons.Relisted (ctx ctx' : Lexicons) : Prop where
  source : ctx.source.Relisted ctx'.source
  target : ctx.target.Relisted ctx'.target
  disjoint : ctx.disjoint = ctx'.disjoint

variable {ctx ctx' : Lexicons} {α β : Type}

/-! ## Providers -/

theorem sourceStatement_relisted {x x' : Lexicon} (h : x.Relisted x') (key : FeatureKey)
    (position : Nat) (part target : String) :
    sourceStatement x' key position part target = sourceStatement x key position part target := by
  have hgroups : groupByValue (x'.affixes key.category key.label) =
      groupByValue (x.affixes key.category key.label) :=
    groupByValue_congr fun _ => (h.affixes key.category key.label).perm.symm.mem_iff
  unfold sourceStatement
  rw [hgroups]

theorem readSource_relisted (h : ctx.Relisted ctx') :
    readSource ctx' = readSource ctx := by
  funext position category label target affixFirst
  unfold readSource
  simp only [Workspace.ensureAttribute_relisted _ h.source, sourceStatement_relisted h.source]

theorem disjointSetOf?_relisted (h : ctx.Relisted ctx') :
    disjointSetOf? ctx' = disjointSetOf? ctx := by
  funext o
  rw [disjointSetOf?, disjointSetOf?, h.disjoint]

theorem provide_relisted (h : ctx.Relisted ctx') : provide ctx' = provide ctx := by
  funext bindings o target
  unfold provide callDisjointMacro callLemmaMacro
  simp only [readSource_relisted h, disjointSetOf?_relisted h,
    Workspace.ensureLemmaMacro_relisted _ h.target,
    Workspace.ensureDisjointMacro_relisted _ h.target]

theorem bindLabels_relisted (h : ctx.Relisted ctx') : bindLabels ctx' = bindLabels ctx := by
  have hlabel : bindLabel ctx' = bindLabel ctx := by
    funext occurrences bindings p
    rw [bindLabel, bindLabel, provide_relisted h]
  funext r
  unfold bindLabels bindingOrder
  rw [hlabel, disjointSetOf?_relisted h]

/-! ## Usable features -/

/-- Two features that compare with the same, and have the same exponents in some order. -/
structure Usable.Alike (u u' : Usable) : Prop where
  label : u'.label = u.label
  operand : u'.operand = u.operand
  mem : ∀ e, e ∈ u'.exponents ↔ e ∈ u.exponents
  valueOf? : ∀ form, u'.valueOf? form = u.valueOf? form

theorem Usable.Alike.admits {u u' : Usable} (h : u.Alike u') : u'.admits = u.admits := by
  funext value
  rw [Usable.admits, Usable.admits, h.operand]

theorem Usable.Alike.values {u u' : Usable} (h : u.Alike u') : u'.values = u.values := by
  apply sortStrings_congr
  simp [h.mem]

/-- Two computations that have related results, and leave the same behind. -/
def Alike (R : α → α → Prop) (m m' : Emit α) : Prop :=
  ∀ e, R (m e).1 (m' e).1 ∧ (m' e).2 = (m e).2

namespace Alike

variable {R : α → α → Prop} {S : β → β → Prop} {m m' : Emit α} {f f' : α → Emit β}

theorem refl (m : Emit α) : Alike Eq m m := fun _ => ⟨rfl, rfl⟩

/-- Computations that have equal results are equal. -/
theorem eq (h : Alike Eq m m') : m' = m := by
  funext e
  obtain ⟨hresult, hstate⟩ := h e
  exact Prod.ext hresult.symm hstate

theorem pure {a a' : α} (h : R a a') : Alike R (Pure.pure a : Emit α) (Pure.pure a') :=
  fun _ => ⟨h, rfl⟩

theorem bind (h : Alike R m m') (hf : ∀ a a', R a a' → Alike S (f a) (f' a')) :
    Alike S (m >>= f) (m' >>= f') := by
  intro e
  obtain ⟨hresult, hstate⟩ := h e
  show S (f (m e).1 (m e).2).1 (f' (m' e).1 (m' e).2).1 ∧
    (f' (m' e).1 (m' e).2).2 = (f (m e).1 (m e).2).2
  rw [hstate]
  exact hf _ _ hresult (m e).2

end Alike

/-- Usable features, one after the other. -/
theorem usableFeatures_cons (bindings : Bindings) (category : String)
    (forms : String → List Exponent) (o : Occurrence) (rest : List Occurrence) :
    usableFeatures bindings category forms (o :: rest) =
      if (forms o.feature.label).isEmpty then do
        report (.unresolvedFeature category o.feature.label)
        usableFeatures bindings category forms rest
      else do
        match ← operand? bindings o with
        | none => usableFeatures bindings category forms rest
        | some operand =>
          let more ← usableFeatures bindings category forms rest
          return ⟨o.feature.label, operand, firstExponents [] (forms o.feature.label)⟩ :: more := by
  rw [usableFeatures]
  cases forms o.feature.label with
  | nil => rfl
  | cons first exponents => rfl

/-- Features with the same exponents in some order are alike. -/
theorem usable_alike (label : String) (operand : Operand) {es es' : List Exponent}
    (h : SameEntries es es') :
    Usable.Alike ⟨label, operand, firstExponents [] es⟩
      ⟨label, operand, firstExponents [] es'⟩ where
  label := rfl
  operand := rfl
  mem := mem_firstExponents_relisted h
  valueOf? form := by
    rw [Usable.valueOf?, Usable.valueOf?, find?_firstExponents List.not_mem_nil,
      find?_firstExponents List.not_mem_nil, h.find?]

/-- The usable features are the same up to the order of their exponents. -/
theorem usableFeatures_alike (bindings : Bindings) (category : String)
    {forms forms' : String → List Exponent} (h : ∀ label, SameEntries (forms label) (forms' label))
    (occurrences : List Occurrence) :
    Alike (List.Forall₂ Usable.Alike) (usableFeatures bindings category forms occurrences)
      (usableFeatures bindings category forms' occurrences) := by
  induction occurrences with
  | nil => exact .pure .nil
  | cons o rest ih =>
      have hfeature := h o.feature.label
      rw [usableFeatures_cons, usableFeatures_cons, hfeature.isEmpty_eq]
      split
      · exact (Alike.refl _).bind fun _ _ _ => ih
      · refine (Alike.refl (operand? bindings o)).bind ?_
        rintro operand _ rfl
        cases operand with
        | none => exact ih
        | some operand =>
            refine ih.bind fun more more' hmore => ?_
            exact .pure (.cons (usable_alike _ operand hfeature) hmore)

/-! ## Affixes and lemmas -/

section Alike

variable {us us' : List Usable} (h : List.Forall₂ Usable.Alike us us')
include h

/-- Features that are alike are looked at in the same way. -/
theorem map_alike {f : Usable → α} (hf : ∀ u u', Usable.Alike u u' → f u' = f u) :
    us'.map f = us.map f := by
  induction h with
  | nil => rfl
  | cons hu _ ih => rw [List.map_cons, List.map_cons, hf _ _ hu, ih]

theorem operands_alike : us'.map Usable.operand = us.map Usable.operand :=
  map_alike h fun _ _ hu => hu.operand

theorem labels_alike : us'.map Usable.label = us.map Usable.label :=
  map_alike h fun _ _ hu => hu.label

theorem isEmpty_alike : us'.isEmpty = us.isEmpty := by
  cases h <;> rfl

theorem all_given_alike :
    (us'.all fun u => u.operand.name?.isNone) = us.all fun u => u.operand.name?.isNone := by
  have hall : ∀ us : List Usable, (us.all fun u => u.operand.name?.isNone) =
      (us.map Usable.operand).all fun operand => operand.name?.isNone :=
    fun us => by rw [List.all_map]; rfl
  rw [hall, hall, operands_alike h]

theorem givenValues_alike :
    (us'.filterMap fun u => u.operand.value?) = us.filterMap fun u => u.operand.value? := by
  have hvalues : ∀ us : List Usable, (us.filterMap fun u => u.operand.value?) =
      (us.map Usable.operand).filterMap Operand.value? :=
    fun us => by rw [List.filterMap_map]; rfl
  rw [hvalues, hvalues, operands_alike h]

theorem storedEquations_alike (values : List String) :
    storedEquations us' values = storedEquations us values := by
  induction h generalizing values with
  | nil => rfl
  | cons hu _ ih =>
      cases values with
      | nil => rfl
      | cons value values =>
          unfold storedEquations at ih ⊢
          rw [List.zip_cons_cons, List.zip_cons_cons, List.filterMap_cons, List.filterMap_cons, ih]
          dsimp only
          rw [hu.operand]

theorem carriedValues?_alike (form : String) :
    carriedValues? us' form = carriedValues? us form := by
  unfold carriedValues?
  induction h with
  | nil => rfl
  | cons hu _ ih => rw [List.mapM_cons, List.mapM_cons, ih, hu.valueOf?, hu.admits]

theorem affixCandidates_alike : affixCandidates us' = affixCandidates us := by
  have hcarried := carriedValues?_alike h
  unfold affixCandidates
  cases h with
  | nil => rfl
  | @cons first first' rest rest' hfirst _ =>
      have hforms : sortStrings (first'.exponents.map Exponent.form) =
          sortStrings (first.exponents.map Exponent.form) := by
        apply sortStrings_congr
        simp [hfirst.mem]
      dsimp only
      rw [hforms]
      simp only [hcarried]

theorem lemmasOf_alike : lemmasOf us' = lemmasOf us := by
  apply sortStrings_congr
  intro form
  induction h with
  | nil => rfl
  | cons hu _ ih =>
      rw [List.flatMap_cons, List.flatMap_cons, List.mem_append, List.mem_append, ih]
      simp [hu.mem]

theorem agrees_alike (form : String) (values : List String) :
    agrees form us' values = agrees form us values := by
  induction h generalizing values with
  | nil => rfl
  | cons hu _ ih =>
      cases values with
      | nil => rfl
      | cons value values =>
          unfold agrees at ih ⊢
          rw [List.zip_cons_cons, List.zip_cons_cons, List.all_cons, List.all_cons, ih]
          dsimp only
          rw [hu.valueOf?]

theorem bestAmong?_alike (lemmas values : List String) (count : Nat) :
    bestAmong? lemmas us' values count = bestAmong? lemmas us values count := by
  induction count with
  | zero => rfl
  | succ count ih =>
      have hagrees : ∀ form, agrees form (us'.take (count + 1)) (values.take (count + 1)) =
          agrees form (us.take (count + 1)) (values.take (count + 1)) :=
        fun form => agrees_alike (List.forall₂_take _ h) form _
      rw [bestAmong?, bestAmong?, ih]
      simp only [hagrees]

theorem bestLemma?_alike (values : List String) : bestLemma? us' values = bestLemma? us values := by
  rw [bestLemma?, bestLemma?, lemmasOf_alike h, bestAmong?_alike h]

theorem combinations_alike : combinations us' = combinations us := by
  induction h with
  | nil => rfl
  | cons hu _ ih => rw [combinations, combinations, ih, hu.operand, hu.values]

theorem lemmaSelections_alike : lemmaSelections us' = lemmaSelections us := by
  unfold lemmaSelections
  rw [combinations_alike h]
  simp only [bestLemma?_alike h]

end Alike

theorem emitAffix_relisted (h : ctx.Relisted ctx') : emitAffix ctx' = emitAffix ctx := by
  funext bindings position category occurrences
  apply Alike.eq
  unfold emitAffix
  refine (usableFeatures_alike bindings category (h.target.affixes category) occurrences).bind ?_
  intro us us' hus
  simp only [isEmpty_alike hus, affixCandidates_alike hus, labels_alike hus, missingForm,
    givenValues_alike hus, all_given_alike hus, affixChoice, storedEquations_alike hus]
  exact .refl _

theorem emitLemma_relisted (h : ctx.Relisted ctx') : emitLemma ctx' = emitLemma ctx := by
  funext bindings position category occurrences
  apply Alike.eq
  unfold emitLemma
  refine (usableFeatures_alike bindings category (h.target.lemmas category) _).bind ?_
  intro us us' hus
  simp only [isEmpty_alike hus, all_given_alike hus, givenValues_alike hus, bestLemma?_alike hus,
    lemmaSelections_alike hus, lemmaSelection, storedEquations_alike hus]
  exact .refl _

/-! ## Rules -/

theorem emitPattern_relisted (h : ctx.Relisted ctx') : emitPattern ctx' = emitPattern ctx := by
  funext words
  unfold emitPattern
  simp only [Workspace.ensureCategory_relisted _ h.source]

theorem emitOutput_relisted (h : ctx.Relisted ctx') : emitOutput ctx' = emitOutput ctx := by
  have hword : emitWord ctx' = emitWord ctx := by
    funext bindings rule r w index position
    unfold emitWord emitAffixes
    rw [emitLemma_relisted h, emitAffix_relisted h]
  funext bindings rule r words
  induction words with
  | nil => rfl
  | cons word rest ih =>
      obtain ⟨w, index⟩ := word
      rw [emitOutput, emitOutput, hword, ih]

theorem ruleCategories_relisted (h : ctx.Relisted ctx') :
    ruleCategories ctx' = ruleCategories ctx := by
  funext rule
  rw [ruleCategories, ruleCategories, h.source.categoryNames, h.target.categoryNames]

/-- **A rule is compiled to the same**, whatever the order of the lists is. -/
theorem compile_relisted (h : ctx.Relisted ctx') : compile ctx' = compile ctx := by
  funext rule r
  unfold compile
  rw [emitPattern_relisted h, bindLabels_relisted h, emitOutput_relisted h,
    ruleCategories_relisted h]

end TransferRules.Compile
