import TransferRules.Proofs.Compile.AffixGloss

/-!
# Glosses that express several values

One gloss may express several values, and one value several glosses.  The table of an affix goes by
glosses: each has one row, for the value that is listed first for it.  So a value is expressed if it
is listed first for some gloss.  A value for which the lexicon has a gloss only behind another value
has no row, and where it is asked for the affix stays empty.

## Main Definitions

* `Expresses` — an output that is a gloss listed with a value
* `SetApart` — a reading that does not mistake a value for another one, nor a gloss for nothing

## Main Statements

* `expresses_iff_of_renders` — which values are expressed
* `emitAffix_expresses` — what an affix with one feature puts out
* `not_expresses_emittedSuffix` — a value for which there is a gloss, and which is not expressed
-/

namespace TransferRules.Compile

open TransferRules.Action
open TransferRules.Ordered

/-- An output is a gloss that is listed with a value. -/
def Expresses (r : Reading) (glosses : List Exponent) (value output : String) : Prop :=
  ∃ form, ⟨form, value⟩ ∈ glosses ∧ output = r.tag form

/-- A reading of tags tells a value from the others that are listed, and glosses from nothing. -/
structure SetApart (r : Reading) (glosses : List Exponent) (value : String) : Prop where
  values : ∀ x ∈ glosses, r.tag x.value = r.tag value → x.value = value
  glosses : ∀ x ∈ glosses, r.tag x.form ≠ ""

variable {glosses : List Exponent} {form value : String} {r : Reading}

theorem mem_of_firstValue? (h : firstValue? glosses form = some value) :
    ⟨form, value⟩ ∈ glosses := by
  obtain ⟨x, hx, rfl⟩ := Option.map_eq_some_iff.1 h
  have hform : x.form = form := by simpa using List.find?_some hx
  rw [← hform]
  exact List.mem_of_find?_eq_some hx

/-- A gloss that is listed has a first value. -/
theorem exists_firstValue? {x : Exponent} (h : x ∈ glosses) :
    ∃ value, firstValue? glosses x.form = some value := by
  have hfound : (glosses.find? fun y => y.form == x.form).isSome = true :=
    List.find?_isSome.2 ⟨x, h, beq_self_eq_true x.form⟩
  exact Option.isSome_iff_exists.1 (by rwa [firstValue?, Option.isSome_map])

/-- The engine sets a value apart if there is no closing bracket in it and in what is listed. -/
theorem setApart_engine (s : Scene) (hvalue : '>' ∉ value.toList)
    (hvalues : ∀ x ∈ glosses, '>' ∉ x.value.toList) : SetApart (.engine s) glosses value where
  values x hx := eq_of_tagText_eq (hvalues x hx) hvalue
  glosses x _ h := by
    have hlength := congrArg (fun text => text.toList.length) h
    simp [Reading.engine, tagText] at hlength

/-! ## One feature -/

section OneFeature

variable {lexicon : String → List Exponent} {label name output : String} {contents : Contents}

/-- For one feature with a variable every gloss is a candidate. -/
theorem isCandidate_single :
    IsCandidate lexicon [⟨label, .stored name⟩] form ↔
      ∃ value, firstValue? (lexicon label) form = some value := by
  simp [IsCandidate]

/-- It fits if the variable holds the tag of its first value. -/
theorem fits_single :
    Fits r contents lexicon [⟨label, .stored name⟩] form ↔
      ∃ value, firstValue? (lexicon label) form = some value ∧ contents name = r.tag value := by
  simp [Fits]

/-- **A value is expressed** if it is listed first for some gloss, and otherwise the output is
empty. -/
theorem expresses_iff_of_renders
    (h : Renders r contents lexicon [⟨label, .stored name⟩] output)
    (hvalue : contents name = r.tag value) (hapart : SetApart r (lexicon label) value) :
    (Expresses r (lexicon label) value output ↔
        ∃ form, firstValue? (lexicon label) form = some value) ∧
      ((∀ form, firstValue? (lexicon label) form ≠ some value) → output = "") := by
  cases h with
  | gloss form candidate fits least =>
      obtain ⟨value', hfirst, hholds⟩ := fits_single.1 fits
      -- the variable holds one value only, so the gloss is one for which it is listed first
      obtain rfl : value' = value :=
        hapart.values _ (mem_of_firstValue? hfirst) (hholds.symm.trans hvalue)
      refine ⟨⟨fun _ => ⟨form, hfirst⟩, fun _ => ⟨form, mem_of_firstValue? hfirst, rfl⟩⟩, ?_⟩
      exact fun hnone => absurd hfirst (hnone form)
  | empty none =>
      refine ⟨⟨?_, ?_⟩, fun _ => rfl⟩
      · rintro ⟨form, hmem, hempty⟩
        exact absurd hempty.symm (hapart.glosses _ hmem)
      · rintro ⟨form, hfirst⟩
        exact absurd (fits_single.2 ⟨value, hfirst, hvalue⟩)
          (none form (isCandidate_single.2 ⟨value, hfirst⟩))

end OneFeature

/-- **What an affix with one feature puts out.**  Suppose the feature agrees with others, its match
label is bound, and the lexicon has glosses for it.  Then there is an output.  If what the feature
is compared with holds the tag of a value, a gloss that is listed with this value is put out just if
the value is listed first for some gloss; and if it is not, the output is empty. -/
theorem emitAffix_expresses (ctx : Lexicons) (bindings : Bindings) (position : Nat)
    (category name : String) (o : Occurrence) (e : Emission)
    (hname : operandOf? bindings o = some (.stored name))
    (hlisted : ctx.target.affixes category o.feature.label ≠ []) :
    let glosses := ctx.target.affixes category o.feature.label
    let emitted := emitAffix ctx bindings position category [o] e
    ∃ v choice?, emitted.1 = some v ∧ AddsChoice e emitted.2 choice? ∧
      ∀ r contents value, contents name = r.tag value → SetApart r glosses value →
        (Expresses r glosses value (readAfter r contents choice? v) ↔
            ∃ form, firstValue? glosses form = some value) ∧
          ((∀ form, firstValue? glosses form ≠ some value) →
            readAfter r contents choice? v = "") := by
  intro glosses emitted
  have hfeatures : comparisons bindings (ctx.target.affixes category) [o] =
      [⟨o.feature.label, .stored name⟩] := by
    have hempty : ¬ (ctx.target.affixes category o.feature.label).isEmpty = true :=
      fun h => hlisted (List.isEmpty_iff.1 h)
    simp only [comparisons, List.filterMap_cons, if_neg hempty, hname, Option.map_some,
      List.filterMap_nil]
  obtain ⟨hnone, -, -, choice?, hadds, -, hread⟩ :=
    @emitTable_spec bindings (ctx.target.affixes category) e position category [o]
      (affixVariable category) glossRows (.lit "") (missingGloss? category)
  rw [← emitAffix_eq] at hnone hadds hread
  rw [hfeatures] at hnone hread
  have hrows : glossRows ([⟨o.feature.label, .stored name⟩].map
      (Comparison.usable (ctx.target.affixes category))) ≠ [] := by
    obtain ⟨x, hx⟩ := List.exists_mem_of_ne_nil _ hlisted
    rw [glossRows, ne_eq, List.map_eq_nil_iff, affixCandidates_eq_nil_iff, not_or, not_forall]
    exact ⟨List.cons_ne_nil _ _, x.form, not_not.2 (isCandidate_single.2 (exists_firstValue? hx))⟩
  obtain ⟨v, hv⟩ : ∃ v, emitted.1 = some v := Option.ne_none_iff_exists'.1 (mt hnone.1 hrows)
  refine ⟨v, choice?, hv, hadds, fun r contents value hvalue hapart => ?_⟩
  have hrenders := @renders_rowValue (ctx.target.affixes category) _ r contents
    (List.cons_ne_nil ⟨o.feature.label, .stored name⟩ [])
  have hout := hread r contents
  rw [show (emitAffix ctx bindings position category [o] e).1 = some v from hv,
    Option.getD_some] at hout
  rw [← hout] at hrenders
  exact expresses_iff_of_renders hrenders hvalue hapart

/-! ## An oblique case -/

/-- A lexicon with one gloss for two of the cases of adjectives. -/
def obliqueCases : Lexicon :=
  ⟨"target", StringMap.empty.insert "adj" none,
    StringMap.empty.insert "adj" (StringMap.empty.insert "case"
      { affixes := [⟨"OBL", "acc"⟩, ⟨"OBL", "dat"⟩, ⟨"NOM", "nom"⟩] })⟩

/-- The variable for the case of the noun. -/
def caseBindings : Bindings := [("α", ⟨"v_n_case", "case", none⟩)]

/-- The suffix by which an adjective agrees with its noun in case. -/
def caseSuffix : Occurrence :=
  ⟨"1", 1, "adj", "adj", false, .affix 0, some 0, ⟨"case", .agreement "α", none, none⟩⟩

/-- What is emitted for the suffix. -/
def emittedSuffix : Option Value × Emission :=
  emitAffix ⟨.named "source", obliqueCases, none⟩ caseBindings 1 "adj" [caseSuffix] ⟨{}, {}, [], []⟩

/-- A phrase about which nothing matters but the variables. -/
def anyPhrase : Scene := ⟨⟨fun _ _ _ => "", fun _ => ""⟩, id⟩

/-- The contents of the variables for a noun in some case. -/
def inCase (value : String) : Contents := fun name =>
  if name = "v_n_case" then tagText value else ""

/-- The first value of the gloss is expressed, and the second one is not. -/
theorem emitAffix_expresses_accusative :
    let glosses := obliqueCases.affixes "adj" "case"
    let r := Reading.engine anyPhrase
    operandOf? caseBindings caseSuffix = some (.stored "v_n_case") ∧ glosses ≠ [] ∧
      SetApart r glosses "acc" ∧ SetApart r glosses "dat" ∧
      ∃ v choice?, emittedSuffix.1 = some v ∧ AddsChoice ⟨{}, {}, [], []⟩ emittedSuffix.2 choice? ∧
        Expresses r glosses "acc" (readAfter r (inCase "acc") choice? v) ∧
        readAfter r (inCase "dat") choice? v = "" := by
  intro glosses r
  have hname : operandOf? caseBindings caseSuffix = some (.stored "v_n_case") := by decide +kernel
  have hlisted : glosses ≠ [] := by decide +kernel
  have hacc : SetApart r glosses "acc" :=
    setApart_engine anyPhrase (by decide +kernel) (by decide +kernel)
  have hdat : SetApart r glosses "dat" :=
    setApart_engine anyPhrase (by decide +kernel) (by decide +kernel)
  obtain ⟨v, choice?, hv, hadds, hout⟩ :=
    emitAffix_expresses ⟨.named "source", obliqueCases, none⟩ caseBindings 1 "adj" "v_n_case"
      caseSuffix ⟨{}, {}, [], []⟩ hname hlisted
  refine ⟨hname, hlisted, hacc, hdat, v, choice?, hv, hadds, ?_, ?_⟩
  · exact (hout r (inCase "acc") "acc" rfl hacc).1.2 ⟨"OBL", by decide +kernel⟩
  · refine (hout r (inCase "dat") "dat" rfl hdat).2 fun form hform => ?_
    have honly : ∀ x ∈ glosses, x.value = "dat" → x.form = "OBL" := by decide +kernel
    obtain rfl : form = "OBL" := honly _ (mem_of_firstValue? hform) rfl
    have hfirst : firstValue? glosses "OBL" = some "acc" := by decide +kernel
    exact absurd (hfirst.symm.trans hform) (by decide)

/-- **A value is not expressed though there is a gloss for it**, behind another value of the same
gloss: in the dative the adjective has no suffix. -/
theorem not_expresses_emittedSuffix :
    let glosses := obliqueCases.affixes "adj" "case"
    let after := emittedSuffix.2.statements.foldl (Statement.run anyPhrase fun _ _ m => m)
      { contents := inCase "dat" }
    ⟨"OBL", "dat"⟩ ∈ glosses ∧
      ¬ Expresses (.engine anyPhrase) glosses "dat"
        ((emittedSuffix.1.getD (.lit "")).eval anyPhrase after.contents) := by
  intro glosses after
  have hout : (emittedSuffix.1.getD (.lit "")).eval anyPhrase after.contents = "" := by
    decide +kernel
  refine ⟨by decide +kernel, ?_⟩
  rw [hout]
  rintro ⟨form, hmem, hempty⟩
  have hapart : SetApart (.engine anyPhrase) glosses "dat" :=
    setApart_engine anyPhrase (by decide +kernel) (by decide +kernel)
  exact hapart.glosses _ hmem hempty.symm

end TransferRules.Compile
