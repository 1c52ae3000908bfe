import TransferRules.Compile.Emission
import TransferRules.Proofs.Workspace.Growth
import TransferRules.Proofs.Workspace.Synthesis

/-!
# What is asked of a workspace

All that anyone asks of a workspace outside its rules is a category, an attribute, a variable, a
macro, or that the grammatical categories be listed.  Every such request lets a coherent workspace
grow, and what it answers is defined afterwards.  A macro is made together with its variables, and
it is only held together with them.

## Main Definitions

* `MacroTable.held` — the macros that are held, with the variables by which they are used
* `Request` — one request

## Main Statements

* `Workspace.ensureLemmaMacro_cases`, `Workspace.ensureDisjointMacro_cases` — what becomes of a
  request for a macro
* `Request.grows` — requests let a coherent workspace grow
* `Request.macros`, `Request.held` — macros are only made and held together with their variables
-/

namespace TransferRules

open TransferRules.Action
open TransferRules.Compile
open TransferRules.Markup
open TransferRules.Ordered
open TransferRules.Transfer

namespace Workspace

variable {w w' : Workspace} {kind : SectionKind} {name : String}

/-! ## Definitions and attributes -/

theorem not_contains_iff :
    (¬ w.document.contains kind name = true) ↔ name ∉ w.document.definitionNames kind :=
  not_congr TransferDocument.contains_iff

/-- A definition that is added unless its name is defined. -/
theorem ensure_grows {e : Element}
    (heq : w' = if w.document.contains kind name then w else w.define kind name e)
    (hrules : kind ≠ .rules) (hattributes : kind ≠ .attributes)
    (htag : e.name = kind.definitionTag) (hname : definitionName? kind e = some name) :
    Grows w w' ∧ name ∈ w'.document.definitionNames kind := by
  subst heq
  split
  · next hdefined => exact ⟨.refl, TransferDocument.contains_iff.1 hdefined⟩
  · next hfresh =>
    refine ⟨.single (.define w hrules hattributes htag hname (not_contains_iff.1 hfresh)), ?_⟩
    exact (mem_definitionNames_define htag hname).2 (.inr ⟨rfl, rfl⟩)

/-- The variable that is asked for is defined. -/
theorem ensureVariable_grows (w : Workspace) (name : String) (comment? : Option String) :
    Grows w (w.ensureVariable name comment?) ∧
      name ∈ (w.ensureVariable name comment?).document.definitionNames .vars := by
  have heq : w.ensureVariable name comment? = if w.document.contains .vars name then w
      else w.define .vars name (variableElement name comment?) := rfl
  refine ensure_grows heq nofun nofun rfl ?_
  simp [definitionName?, variableElement, Element.attribute?, SectionKind.nameKey]

/-- The category that is answered is defined. -/
theorem ensureCategory_grows (w : Workspace) (x : Lexicon) (category : String)
    (values : List String) : Grows w (w.ensureCategory x category values).2 ∧
      (w.ensureCategory x category values).1 ∈
        (w.ensureCategory x category values).2.document.definitionNames .categories := by
  have heq : (w.ensureCategory x category values).2 =
      if w.document.contains .categories (categoryName category values) then w
      else w.define .categories (categoryName category values)
        (categoryElement (categoryName category values)
          (category :: x.subcategories category) values) :=
    apply_ite Prod.snd _ _ _
  have hanswer : (w.ensureCategory x category values).1 = categoryName category values := by
    unfold ensureCategory
    dsimp only
    split <;> rfl
  rw [hanswer]
  refine ensure_grows heq nofun nofun rfl ?_
  simp [definitionName?, categoryElement, Element.pushAll, Element.attribute?, SectionKind.nameKey]

/-- The attribute that is answered is defined. -/
theorem Coherent.addAttribute_grows (hw : w.Coherent) (base : String) (values : StringSet) :
    Grows w (w.addAttribute base values).2 ∧
      (w.addAttribute base values).1 ∈
        (w.addAttribute base values).2.document.definitionNames .attributes := by
  unfold addAttribute
  cases hfound : w.attributes.nameOf? values with
  | some name =>
      refine ⟨.refl, ?_⟩
      obtain ⟨entry, hentry, rfl⟩ := Option.map_eq_some_iff.1 hfound
      rw [← AttributeTable.map_fst_valueSets_ofDocument, ← hw.valueSets]
      exact List.mem_map_of_mem (List.mem_of_find?_eq_some hentry)
  | none =>
      have hfree : (w.names.allocate .attributes base).1 ∉ w.names.used.get .attributes :=
        w.names.allocate_fst_notMem base
      have hfresh := hw.notMem_of_unused hfree
      refine ⟨.single (.defineAttribute w values hfresh), ?_⟩
      exact (mem_definitionNames_define rfl (definitionName?_attributeElement _ values)).2
        (.inr ⟨rfl, rfl⟩)

/-- And so is the attribute of a feature. -/
theorem Coherent.ensureAttribute_grows (hw : w.Coherent) {x : Lexicon} {q : FeatureQuery}
    (h : w.ensureAttribute x q = .ok (name, w')) :
    Grows w w' ∧ name ∈ w'.document.definitionNames .attributes := by
  unfold ensureAttribute at h
  cases hfound : w.attributes.resolved? q.key with
  | some found =>
      rw [hfound] at h
      cases h
      obtain ⟨entry, hentry, rfl⟩ := Option.map_eq_some_iff.1 hfound
      exact ⟨.refl, hw.resolved entry (List.mem_of_find?_eq_some hentry)⟩
  | none =>
      simp only [hfound] at h
      split at h
      · cases h
      · cases h
        obtain ⟨hgrows, hdefined⟩ :=
          hw.addAttribute_grows ("a_" ++ q.stem) (featureValues x q.key)
        exact ⟨hgrows.tail (.resolve _ q.key hdefined), hdefined⟩

/-- Afterwards the category attribute is defined. -/
theorem Coherent.ensureGramCat_grows (hw : w.Coherent) (categories : StringSet) :
    Grows w (w.ensureGramCat categories) ∧
      gramCatName ∈ (w.ensureGramCat categories).document.definitionNames .attributes := by
  by_cases hdefined : gramCatName ∈ w.document.definitionNames .attributes
  · have hgrowth := Growth.extendGramCat w categories hdefined
    exact ⟨.single hgrowth, hgrowth.mem_definitionNames hdefined⟩
  · have hnone : w.document.definition? .attributes gramCatName = none := by
      rw [← Option.not_isSome_iff_eq_none]
      exact not_contains_iff.2 hdefined
    -- The table has no entry either, so that setting one adds it at the end.
    have hentries : gramCatName ∉ w.attributes.valueSets.map Prod.fst := by
      rwa [hw.valueSets, AttributeTable.map_fst_valueSets_ofDocument]
    have hset : ∀ values, w.attributes.setValues gramCatName values =
        { w.attributes with valueSets := w.attributes.valueSets ++ [(gramCatName, values)] } := by
      intro values
      rw [AttributeTable.setValues, AttributeTable.setEntry_of_notMem hentries]
    simp only [ensureGramCat, hnone]
    generalize ((w.attributes.values? gramCatName).getD .empty).union categories = values
    rw [show (w.define .attributes gramCatName (attributeElement gramCatName values)).attributes =
      w.attributes from rfl, hset]
    refine ⟨.single (.defineAttribute w values hdefined), ?_⟩
    exact (mem_definitionNames_define rfl (definitionName?_attributeElement _ values)).2
      (.inr ⟨rfl, rfl⟩)

/-! ## Macros -/

/-- The macro that is asked for is defined, by this definition or by an earlier one. -/
theorem ensureMacro_grows (w : Workspace) (m : MacroDefinition) :
    Grows w (w.ensureMacro m) ∧
      m.name ∈ (w.ensureMacro m).document.definitionNames .macros := by
  have heq : w.ensureMacro m = if w.document.contains .macros m.name then w
      else w.define .macros m.name m.toElement := rfl
  refine ensure_grows heq nofun nofun rfl ?_
  simp [definitionName?, MacroDefinition.toElement, Action.Written.element, Element.attribute?,
    SectionKind.nameKey]

/-- A macro together with some variables. -/
def makeMacro (w : Workspace) (m : MacroDefinition) (vs : List String) : Workspace :=
  vs.foldl (fun w v => w.ensureVariable v none) (w.ensureMacro m)

/-- Hold a lemma macro. -/
def holdLemmaMacro (w : Workspace) (feature : String × String) (handle : MacroHandle) :
    Workspace :=
  { w with macros := { w.macros with lemmaMacros := w.macros.lemmaMacros ++ [(feature, handle)] } }

/-- Hold the macro of a disjoint set, in place of that of another one. -/
def holdDisjointMacro (w : Workspace) (set : DisjointSet) (handle : MacroHandle) : Workspace :=
  { w with macros := { w.macros with disjoint := some (set, handle) } }

/-- What making a macro does: the macro and its variables are defined, and nothing else changes. -/
structure Makes (m : MacroDefinition) (vs : List String) (w w' : Workspace) : Prop where
  grows : Grows w w'
  defined : m.name ∈ w'.document.definitionNames .macros
  supplied : ∀ v ∈ vs, v ∈ w'.document.definitionNames .vars
  definitions : w'.document.definitions .macros =
    if w.document.contains .macros m.name then w.document.definitions .macros
    else w.document.definitions .macros ++ [m.toElement]
  macros : w'.macros = w.macros

theorem makes_makeMacro (w : Workspace) (m : MacroDefinition) (vs : List String) :
    Makes m vs w (w.makeMacro m vs) := by
  have hvariables : ∀ (vs : List String) (w : Workspace),
      Grows w (vs.foldl (fun w v => w.ensureVariable v none) w) ∧
      (∀ v ∈ vs, v ∈ (vs.foldl (fun w v => w.ensureVariable v none)
        w).document.definitionNames .vars) ∧
      (vs.foldl (fun w v => w.ensureVariable v none) w).document.definitions .macros =
        w.document.definitions .macros ∧
      (vs.foldl (fun w v => w.ensureVariable v none) w).macros = w.macros := by
    intro vs
    induction vs with
    | nil => exact fun w => ⟨.refl, nofun, rfl, rfl⟩
    | cons v vs ih =>
        intro w
        obtain ⟨hgrows, hdefined⟩ := w.ensureVariable_grows v none
        obtain ⟨hrest, hsupplied, hdefinitions, hmacros⟩ := ih (w.ensureVariable v none)
        refine ⟨hgrows.trans hrest, fun v' hv' => ?_, ?_, ?_⟩
        · rcases List.mem_cons.1 hv' with rfl | hv'
          · exact hrest.mem_definitionNames hdefined
          · exact hsupplied v' hv'
        · refine hdefinitions.trans ?_
          have htag : (variableElement v none).name = SectionKind.vars.definitionTag := rfl
          unfold ensureVariable
          split
          · rfl
          · exact (TransferDocument.definitions_addDefinition htag).trans (if_neg nofun)
        · refine hmacros.trans ?_
          unfold ensureVariable
          split <;> rfl
  obtain ⟨hgrows, hdefined⟩ := w.ensureMacro_grows m
  obtain ⟨hrest, hsupplied, hdefinitions, hmacros⟩ := hvariables vs (w.ensureMacro m)
  refine ⟨hgrows.trans hrest, hrest.mem_definitionNames hdefined, hsupplied, ?_, ?_⟩
  · have htag : m.toElement.name = SectionKind.macros.definitionTag := rfl
    refine hdefinitions.trans ?_
    unfold ensureMacro
    split
    · rfl
    · exact (TransferDocument.definitions_addDefinition htag).trans (if_pos rfl)
  · refine hmacros.trans ?_
    unfold ensureMacro
    split <;> rfl

/-- **A request for a lemma macro** is answered by the one that is held, or the macro is made with
its variable, unless its name is taken, and held. -/
theorem ensureLemmaMacro_cases {x : Lexicon} {category label : String} {handle : MacroHandle}
    (h : w.ensureLemmaMacro x category label = .ok (handle, w')) :
    (w.macros.lemmaMacro? category label = some handle ∧ w' = w) ∨
      handle = lemmaHandle category label ∧
        w' = (w.makeMacro (lemmaMacroFor x category label) [handle.result]).holdLemmaMacro
          (category, label) handle := by
  unfold ensureLemmaMacro at h
  cases hfound : w.macros.lemmaMacro? category label with
  | some found =>
      rw [hfound] at h
      cases h
      exact .inl ⟨rfl, rfl⟩
  | none =>
      simp only [hfound] at h
      split at h
      · cases h
      · cases h
        exact .inr ⟨rfl, rfl⟩

/-- **A request for a disjoint macro** is answered by the one that is held for this set, or a macro
is made with its variables, unless its name is taken, and held from now on.  It gets the name of
its own if no macro is held, and a free one if that of another set is. -/
theorem ensureDisjointMacro_named {x : Lexicon} {set : DisjointSet} {handle : MacroHandle}
    (h : w.ensureDisjointMacro x set = .ok (handle, w')) :
    (w.macros.disjoint = some (set, handle) ∧ w' = w) ∨
      (∀ other, w.macros.disjoint ≠ some (set, other)) ∧
      ∃ name w₁,
        (w.macros.disjoint = none ∧ name = (disjointNames set).1 ∧ w₁ = w ∨
          name = (w.names.allocate .macros (disjointNames set).1).1 ∧
            w₁ = { w with names := w.names.reserve .macros name }) ∧
        handle = disjointHandle x set name ∧
        w' = (w₁.makeMacro (disjointMacroFor x set name)
          [handle.result, (disjointNames set).2.2]).holdDisjointMacro set handle := by
  unfold ensureDisjointMacro at h
  cases hfound : w.macros.disjoint.filter fun entry => decide (entry.1 = set) with
  | some found =>
      rw [hfound] at h
      cases h
      obtain ⟨hheld, hset⟩ := Option.filter_eq_some_iff.1 hfound
      obtain rfl : found.1 = set := by simpa using hset
      exact .inl ⟨hheld, rfl⟩
  | none =>
      have hother : ∀ other, w.macros.disjoint ≠ some (set, other) := by
        intro other hother
        rw [hother] at hfound
        simp at hfound
      simp only [hfound] at h
      split at h
      · cases h
      · by_cases hheld : w.macros.disjoint.isSome = true
        · simp only [hheld, if_true] at h
          cases h
          exact .inr ⟨hother, _, _, .inr ⟨rfl, rfl⟩, rfl, rfl⟩
        · simp only [hheld] at h
          cases h
          rw [Bool.not_eq_true, Option.isSome_eq_false_iff, Option.isNone_iff_eq_none] at hheld
          exact .inr ⟨hother, _, _, .inl ⟨hheld, rfl, rfl⟩, rfl, rfl⟩

/-- Either way the name is one under which macros of the set are made. -/
theorem ensureDisjointMacro_cases {x : Lexicon} {set : DisjointSet} {handle : MacroHandle}
    (h : w.ensureDisjointMacro x set = .ok (handle, w')) :
    (w.macros.disjoint = some (set, handle) ∧ w' = w) ∨
      (∀ other, w.macros.disjoint ≠ some (set, other)) ∧
      ∃ name w₁, IsMacroName name (disjointNames set).2.1 ∧
        (w₁ = w ∨ w₁ = { w with names := w.names.reserve .macros name }) ∧
        handle = disjointHandle x set name ∧
        w' = (w₁.makeMacro (disjointMacroFor x set name)
          [handle.result, (disjointNames set).2.2]).holdDisjointMacro set handle := by
  rcases ensureDisjointMacro_named h with hheld | ⟨hother, name, w₁, hname, hmade⟩
  · exact .inl hheld
  · rcases hname with ⟨-, rfl, rfl⟩ | ⟨rfl, rfl⟩
    · exact .inr ⟨hother, _, _, .disjointMacro set, .inl rfl, hmade⟩
    · exact .inr ⟨hother, _, _, isMacroName_freeName set _, .inr rfl, hmade⟩

theorem ensureLemmaMacro_grows {x : Lexicon} {category label : String} {handle : MacroHandle}
    (h : w.ensureLemmaMacro x category label = .ok (handle, w')) : Grows w w' := by
  rcases ensureLemmaMacro_cases h with ⟨-, rfl⟩ | ⟨rfl, rfl⟩
  · exact .refl
  · have hmakes := w.makes_makeMacro (lemmaMacroFor x category label)
      [(lemmaHandle category label).result]
    exact hmakes.grows.tail (.holdLemmaMacro _ _ hmakes.defined)

theorem ensureDisjointMacro_grows {x : Lexicon} {set : DisjointSet} {handle : MacroHandle}
    (h : w.ensureDisjointMacro x set = .ok (handle, w')) : Grows w w' := by
  rcases ensureDisjointMacro_cases h with ⟨-, rfl⟩ | ⟨-, name, w₁, -, hw₁, rfl, rfl⟩
  · exact .refl
  · have hmakes := w₁.makes_makeMacro (disjointMacroFor x set name)
      [(disjointHandle x set name).result, (disjointNames set).2.2]
    have htake : Grows w w₁ := by
      rcases hw₁ with rfl | rfl
      · exact .refl
      · exact .single (.take w .macros name nofun)
    exact htake.trans (hmakes.grows.tail (.holdDisjointMacro _ _ hmakes.defined))

/-! ## Requests that are refused -/

/-- A refused request is about the feature that was asked for. -/
theorem ensureLemmaMacro_error {x : Lexicon} {category label : String}
    {issue : Issue} (h : w.ensureLemmaMacro x category label = .error issue) :
    issue = .unresolvedFeature category label := by
  unfold ensureLemmaMacro at h
  split at h
  · cases h
  · dsimp only at h
    split at h
    · cases h
      rfl
    · cases h

theorem ensureDisjointMacro_error {x : Lexicon} {set : DisjointSet}
    {issue : Issue} (h : w.ensureDisjointMacro x set = .error issue) :
    issue = .unresolvedFeature "*" set.name := by
  unfold ensureDisjointMacro at h
  split at h
  · cases h
  · dsimp only at h
    split at h
    · cases h
      rfl
    · cases h

end Workspace

/-! ## Macros that are held -/

/-- A macro that is held: its name, the variable that it sets, and for the macro of a disjoint set
the variable of the co-feature. -/
structure HeldMacro where
  name : String
  result : String
  coVariable? : Option String := none
  deriving Repr, DecidableEq

/-- The variables by which a held macro is used. -/
def HeldMacro.variables (m : HeldMacro) : List String := m.result :: m.coVariable?.toList

namespace MacroTable

/-- The macros that are held. -/
def held (t : MacroTable) : List HeldMacro :=
  t.lemmaMacros.map (fun entry => { name := entry.2.name, result := entry.2.result }) ++
    t.disjoint.toList.map fun entry =>
      ⟨entry.2.name, entry.2.result, some (disjointNames entry.1).2.2⟩

variable {t : MacroTable} {m : HeldMacro}

theorem mem_held_iff : m ∈ t.held ↔
    (∃ entry ∈ t.lemmaMacros, m = { name := entry.2.name, result := entry.2.result }) ∨
      ∃ entry, t.disjoint = some entry ∧
        m = ⟨entry.2.name, entry.2.result, some (disjointNames entry.1).2.2⟩ := by
  simp only [held, List.mem_append, List.mem_map, Option.mem_toList, eq_comm (a := m)]

/-- What is held after some macros were forgotten was held before. -/
theorem mem_held_of_forget {names : List String} (h : m ∈ (t.forget names).held) : m ∈ t.held := by
  rw [mem_held_iff] at h ⊢
  rcases h with ⟨entry, hentry, rfl⟩ | ⟨entry, hentry, rfl⟩
  · exact .inl ⟨entry, (List.mem_filter.1 hentry).1, rfl⟩
  · exact .inr ⟨entry, Option.mem_def.1 (Option.mem_filter_iff.1 hentry).1, rfl⟩

end MacroTable

/-- What is held is defined. -/
theorem Workspace.Coherent.mem_definitionNames_of_held {w : Workspace} (hw : w.Coherent)
    {m : HeldMacro} (hm : m ∈ w.macros.held) : m.name ∈ w.document.definitionNames .macros := by
  rcases MacroTable.mem_held_iff.1 hm with ⟨entry, hentry, rfl⟩ | ⟨entry, hentry, rfl⟩
  · exact hw.lemmaMacros entry hentry
  · exact hw.disjoint entry hentry

/-! ## Requests -/

/-- One request that is made of a workspace. -/
inductive Request (ctx : Lexicons) : Workspace → Workspace → Prop where
  | needCategory (w : Workspace) (category : String) (values : List String) :
      Request ctx w (w.ensureCategory ctx.source category values).2
  | needAttribute {w w' : Workspace} {q : FeatureQuery} {name : String}
      (h : w.ensureAttribute (if q.key.isSource then ctx.source else ctx.target) q =
        .ok (name, w')) : Request ctx w w'
  | needValues (w : Workspace) (base : String) (values : StringSet) :
      Request ctx w (w.addAttribute base values).2
  | needVariable (w : Workspace) (name : String) (comment? : Option String) :
      Request ctx w (w.ensureVariable name comment?)
  | needLemmaMacro {w w' : Workspace} {category label : String} {handle : MacroHandle}
      (h : w.ensureLemmaMacro ctx.target category label = .ok (handle, w')) : Request ctx w w'
  | needDisjointMacro {w w' : Workspace} {set : DisjointSet} {handle : MacroHandle}
      (hset : ctx.disjoint = some set)
      (h : w.ensureDisjointMacro ctx.target set = .ok (handle, w')) : Request ctx w w'
  | needGramCat (w : Workspace) (categories : StringSet) :
      Request ctx w (w.ensureGramCat categories)

namespace Request

variable {ctx : Lexicons} {w w' : Workspace}

/-- Requests let a coherent workspace grow. -/
theorem grows (hw : w.Coherent) (h : Request ctx w w') : w.Grows w' := by
  cases h with
  | needCategory category values => exact (w.ensureCategory_grows _ _ _).1
  | needAttribute h => exact (hw.ensureAttribute_grows h).1
  | needValues base values => exact (hw.addAttribute_grows base values).1
  | needVariable name comment? => exact (w.ensureVariable_grows _ _).1
  | needLemmaMacro h => exact Workspace.ensureLemmaMacro_grows h
  | needDisjointMacro _ h => exact Workspace.ensureDisjointMacro_grows h
  | needGramCat categories => exact (hw.ensureGramCat_grows _).1

/-- A request that is not about a macro leaves macros as they are. -/
theorem macros_eq (h : Request ctx w w') :
    (w'.document.definitions .macros = w.document.definitions .macros ∧ w'.macros = w.macros) ∨
      (∃ category label handle,
        w.ensureLemmaMacro ctx.target category label = .ok (handle, w')) ∨
      ∃ set handle, ctx.disjoint = some set ∧
        w.ensureDisjointMacro ctx.target set = .ok (handle, w') := by
  have hadd : ∀ (base : String) (values : StringSet),
      (w.addAttribute base values).2.document.definitions .macros =
          w.document.definitions .macros ∧ (w.addAttribute base values).2.macros = w.macros := by
    intro base values
    have htag : ∀ name, (attributeElement name values).name =
        SectionKind.attributes.definitionTag := fun _ => rfl
    unfold Workspace.addAttribute
    split
    · exact ⟨rfl, rfl⟩
    · exact ⟨(TransferDocument.definitions_addDefinition (htag _)).trans (if_neg nofun), rfl⟩
  cases h with
  | needCategory category values =>
      have htag : ∀ name covered, (categoryElement name covered values).name =
          SectionKind.categories.definitionTag := fun _ _ => rfl
      refine .inl ?_
      unfold Workspace.ensureCategory
      dsimp only
      split
      · exact ⟨rfl, rfl⟩
      · exact ⟨(TransferDocument.definitions_addDefinition (htag _ _)).trans (if_neg nofun), rfl⟩
  | @needAttribute _ q name h =>
      refine .inl ?_
      generalize (if q.key.isSource then ctx.source else ctx.target) = x at h
      unfold Workspace.ensureAttribute at h
      split at h
      · cases h
        exact ⟨rfl, rfl⟩
      · dsimp only at h
        split at h
        · cases h
        · cases h
          exact hadd _ _
  | needValues base values => exact .inl (hadd base values)
  | needVariable name comment? =>
      have htag : (Workspace.variableElement name comment?).name =
          SectionKind.vars.definitionTag := rfl
      refine .inl ?_
      unfold Workspace.ensureVariable
      split
      · exact ⟨rfl, rfl⟩
      · exact ⟨(TransferDocument.definitions_addDefinition htag).trans (if_neg nofun), rfl⟩
  | needLemmaMacro h => exact .inr (.inl ⟨_, _, _, h⟩)
  | needDisjointMacro hset h => exact .inr (.inr ⟨_, _, hset, h⟩)
  | needGramCat categories =>
      have htag : ∀ values, (attributeElement gramCatName values).name =
          SectionKind.attributes.definitionTag := fun _ => rfl
      refine .inl ?_
      unfold Workspace.ensureGramCat
      split
      · exact ⟨TransferDocument.definitions_updateDefinition_of_ne nofun, rfl⟩
      · exact ⟨(TransferDocument.definitions_addDefinition (htag _)).trans (if_neg nofun), rfl⟩

/-- **What a request does to macros.**  The macros that it makes have new names and come with
their variables; and so does what it holds. -/
theorem macros (h : Request ctx w w') :
    (∃ new : List MacroDefinition, w'.document.definitions .macros =
        w.document.definitions .macros ++ new.map MacroDefinition.toElement ∧
      ∀ m ∈ new, m.name ∉ w.document.definitionNames .macros ∧
        ∃ vs, Synthesized ctx.target m vs ∧
          ∀ v ∈ vs, v ∈ w'.document.definitionNames .vars) ∧
    ∀ m ∈ w'.macros.held, m ∈ w.macros.held ∨
      IsMacroName m.name m.result ∧ ∀ v ∈ m.variables, v ∈ w'.document.definitionNames .vars := by
  have hsame : w'.document.definitions .macros = w.document.definitions .macros →
      ∃ new : List MacroDefinition, w'.document.definitions .macros =
          w.document.definitions .macros ++ new.map MacroDefinition.toElement ∧
        ∀ m ∈ new, m.name ∉ w.document.definitionNames .macros ∧
          ∃ vs, Synthesized ctx.target m vs ∧
            ∀ v ∈ vs, v ∈ w'.document.definitionNames .vars :=
    fun heq => ⟨[], heq.trans (List.append_nil _).symm, nofun⟩
  -- A macro that is made is new, or a macro of its name stands already.
  have hmade : ∀ {w₁ w₂ : Workspace} {m : MacroDefinition} {vs : List String},
      Workspace.Makes m vs w₁ w₂ → Synthesized ctx.target m vs →
      ∃ new : List MacroDefinition, w₂.document.definitions .macros =
          w₁.document.definitions .macros ++ new.map MacroDefinition.toElement ∧
        ∀ m ∈ new, m.name ∉ w₁.document.definitionNames .macros ∧
          ∃ vs, Synthesized ctx.target m vs ∧
            ∀ v ∈ vs, v ∈ w₂.document.definitionNames .vars := by
    intro w₁ w₂ m vs hmakes hsynthesized
    by_cases hcontains : w₁.document.contains .macros m.name = true
    · exact ⟨[], by rw [hmakes.definitions, if_pos hcontains]; exact (List.append_nil _).symm,
        nofun⟩
    · refine ⟨[m], by rw [hmakes.definitions, if_neg hcontains]; rfl, fun m' hm' => ?_⟩
      rw [List.mem_singleton.1 hm']
      exact ⟨Workspace.not_contains_iff.1 hcontains, vs, hsynthesized, hmakes.supplied⟩
  rcases h.macros_eq with ⟨hdefinitions, hmacros⟩ | ⟨category, label, handle, h⟩ |
    ⟨set, handle, -, h⟩
  · exact ⟨hsame hdefinitions, fun m hm => .inl (hmacros ▸ hm)⟩
  · rcases Workspace.ensureLemmaMacro_cases h with ⟨-, rfl⟩ | ⟨rfl, rfl⟩
    · exact ⟨hsame rfl, fun m hm => .inl hm⟩
    · have hmakes := w.makes_makeMacro (lemmaMacroFor ctx.target category label)
        [(lemmaHandle category label).result]
      have hnew := hmade hmakes (.lemmaMacro category label)
      refine ⟨hnew, fun m hm => ?_⟩
      rcases MacroTable.mem_held_iff.1 hm with ⟨entry, hentry, rfl⟩ | hdisjoint
      · rcases List.mem_append.1 hentry with hold | hnew
        · exact .inl (MacroTable.mem_held_iff.2 (.inl ⟨entry, hmakes.macros ▸ hold, rfl⟩))
        · rw [List.mem_singleton.1 hnew]
          exact .inr ⟨.lemmaMacro category label, hmakes.supplied⟩
      · exact .inl (MacroTable.mem_held_iff.2 (.inr (hmakes.macros ▸ hdisjoint)))
  · rcases Workspace.ensureDisjointMacro_cases h with
      ⟨-, rfl⟩ | ⟨-, name, w₁, hname, hw₁, rfl, rfl⟩
    · exact ⟨hsame rfl, fun m hm => .inl hm⟩
    · have hmakes := w₁.makes_makeMacro (disjointMacroFor ctx.target set name)
        [(disjointHandle ctx.target set name).result, (disjointNames set).2.2]
      obtain ⟨hdocument, hmacros⟩ : w₁.document = w.document ∧ w₁.macros = w.macros := by
        rcases hw₁ with rfl | rfl
        · exact ⟨rfl, rfl⟩
        · exact ⟨rfl, rfl⟩
      have hnew := hmade hmakes (.disjointMacro set hname)
      rw [hdocument] at hnew
      refine ⟨hnew, fun m hm => ?_⟩
      rcases MacroTable.mem_held_iff.1 hm with ⟨entry, hentry, rfl⟩ | ⟨entry, hentry, rfl⟩
      · refine .inl (MacroTable.mem_held_iff.2 (.inl ⟨entry, ?_, rfl⟩))
        exact hmacros ▸ hmakes.macros ▸ hentry
      · cases hentry
        exact .inr ⟨hname, hmakes.supplied⟩

end Request

end TransferRules
