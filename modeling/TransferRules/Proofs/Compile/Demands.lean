import TransferRules.Proofs.Compile.Composition
import TransferRules.Proofs.Transfer.Trim
import TransferRules.Proofs.Workspace.HeldMacros
import TransferRules.Proofs.Workspace.Persistence

/-!
# Definitions that are built for what is asked for

A compilation asks for the category of a source word, for the macro of a feature, or for that of a
disjoint set, and it is answered with a name.  The name is made from several texts, and a
definition that has it already is taken for the one that was asked for.  So what stands under the
name is what was asked for as long as nothing else that is asked for has the same name and another
definition.

The macro of a disjoint set is an exception.  While that of another set is held, a free name is
taken, so sets may share a name; only a trim that makes the held macro forgotten leads back to the
name that they share.

## Main Definitions

* `categoryFor`, `MacroDemand.macroFor` — what is built for a source word, and for a macro that is
  asked for
* `Asked`, `Unambiguous` — what is asked for, and that no name stands for two definitions
* `Workspace.Faithful` — the definitions of a workspace are built for what is asked for

## Main Statements

* `Faithful.category`, `Faithful.request` — **step lemmas**: a request keeps a workspace faithful,
  and what was asked for stands under the name that is answered
-/

namespace TransferRules

open TransferRules.Action
open TransferRules.Markup
open TransferRules.Ordered
open TransferRules.Transfer

/-! ## What is built -/

/-- The name of the category of a source word. -/
def SourceWord.patternName (w : SourceWord) : String :=
  TransferRules.categoryName w.categoryName w.fixedValues

/-- The category that is built for a source word. -/
def categoryFor (x : Lexicon) (w : SourceWord) : Element :=
  categoryElement w.patternName (w.categoryName :: x.subcategories w.categoryName) w.fixedValues

theorem definitionName?_categoryFor (x : Lexicon) (w : SourceWord) :
    definitionName? .categories (categoryFor x w) = some w.patternName := by
  simp [definitionName?, categoryFor, categoryElement, Element.pushAll, Element.attribute?,
    SectionKind.nameKey]

namespace Compile

namespace MacroDemand

/-- The name that a macro is to have. -/
def name : MacroDemand → String
  | lemmaMacro category label => (lemmaMacroNames category label).1
  | disjointMacro set => (disjointNames set).1

/-- Whether the macro of a disjoint set is asked for. -/
def isDisjoint : MacroDemand → Bool
  | lemmaMacro _ _ => false
  | disjointMacro _ => true

/-- The macro that is built; that of a disjoint set may be built under any name. -/
def macroFor (x : Lexicon) (name : String) : MacroDemand → MacroDefinition
  | lemmaMacro category label => lemmaMacroFor x category label
  | disjointMacro set => disjointMacroFor x set name

/-- The names under which a macro is built: its own, and for a disjoint set any number behind
it. -/
inductive MayHave : MacroDemand → String → Prop where
  | own (d : MacroDemand) : MayHave d d.name
  | numbered (set : DisjointSet) (n : Nat) :
      MayHave (.disjointMacro set) (numbered (disjointNames set).1 n)

/-- What was asked for stands under a name. -/
def StandsUnder (d : MacroDemand) (x : Lexicon) (t : TransferDocument) (name : String) : Prop :=
  t.definition? .macros name = some (d.macroFor x name).toElement

instance (d : MacroDemand) (x : Lexicon) (t : TransferDocument) (name : String) :
    Decidable (d.StandsUnder x t name) :=
  inferInstanceAs (Decidable (_ = _))

variable {d d' : MacroDemand} {x : Lexicon} {name : String}

theorem name_macroFor (h : d.MayHave name) : (d.macroFor x name).name = name := by
  cases h with
  | own d =>
      cases d with
      | lemmaMacro category label => rfl
      | disjointMacro set => rfl
  | numbered set n => rfl

theorem endsStem_name (d : MacroDemand) : EndsStem d.name := by
  cases d with
  | lemmaMacro category label => exact (endsStem_fromLemma.append _).identifier.append _
  | disjointMacro set => exact endsStem_fromLemma.append _

/-- No number stands behind a name that a macro is to have. -/
theorem MayHave.name_eq (h : d'.MayHave d.name) : d'.name = d.name := by
  generalize hname : d.name = name at h
  cases h with
  | own d' => rfl
  | numbered set n => exact absurd (hname ▸ d.endsStem_name) (not_endsStem_numbered _ n)

theorem mayHave_allocate (set : DisjointSet) (t : NameTable) :
    (disjointMacro set).MayHave (t.allocate .macros (disjointNames set).1).1 := by
  show (disjointMacro set).MayHave (freeName (Text.identifier (disjointNames set).1) _)
  rw [identifier_disjointName]
  rcases freeName_spec (disjointNames set).1 (t.used.get .macros) with
    ⟨-, heq⟩ | ⟨-, n, -, heq, -⟩
  · rw [heq]
    exact .own (.disjointMacro set)
  · rw [heq]
    exact .numbered set n

theorem request_grows (d : MacroDemand) {w w' : Workspace} {handle : MacroHandle}
    (h : d.request x w = .ok (handle, w')) : w.Grows w' := by
  cases d with
  | lemmaMacro category label => exact Workspace.ensureLemmaMacro_grows h
  | disjointMacro set => exact Workspace.ensureDisjointMacro_grows h

end MacroDemand

/-- What is asked for: categories for source words, and macros; and whether there is a trim. -/
structure Asked where
  words : List SourceWord
  macros : List MacroDemand
  trimmed : Bool
  deriving Repr, DecidableEq

/-- No name stands for two different definitions that are asked for.  Disjoint sets may share a
name, unless there is a trim. -/
structure Unambiguous (source target : Lexicon) (asked : Asked) : Prop where
  categories : ∀ w ∈ asked.words, ∀ w' ∈ asked.words, w.patternName = w'.patternName →
    categoryFor source w = categoryFor source w'
  macros : ∀ d ∈ asked.macros, ∀ d' ∈ asked.macros, d.name = d'.name →
    (d.isDisjoint = true → d'.isDisjoint = true → asked.trimmed = true) →
      d.macroFor target d.name = d'.macroFor target d.name

end Compile

open TransferRules.Compile

/-! ## Definitions that are left alone -/

namespace Workspace

variable {w w' : Workspace}

/-- Categories and macros are left alone. -/
structure Untouched (w w' : Workspace) : Prop where
  categories : w'.document.definitions .categories = w.document.definitions .categories
  macros : w'.document.definitions .macros = w.document.definitions .macros
  held : w'.macros = w.macros

namespace Untouched

theorem refl (w : Workspace) : Untouched w w := ⟨rfl, rfl, rfl⟩

theorem addDefinition {kind : SectionKind} {e : Element} (htag : e.name = kind.definitionTag)
    (hcategories : kind ≠ .categories) (hmacros : kind ≠ .macros) (names : NameTable)
    (attributes : AttributeTable) :
    Untouched w
      { document := w.document.addDefinition kind e, names, attributes, macros := w.macros } where
  categories := (TransferDocument.definitions_addDefinition htag).trans (if_neg hcategories.symm)
  macros := (TransferDocument.definitions_addDefinition htag).trans (if_neg hmacros.symm)
  held := rfl

theorem ensureVariable (w : Workspace) (name : String) (comment? : Option String) :
    Untouched w (w.ensureVariable name comment?) := by
  have htag : (variableElement name comment?).name = SectionKind.vars.definitionTag := rfl
  unfold Workspace.ensureVariable
  split
  · exact refl w
  · exact addDefinition htag nofun nofun _ _

theorem addAttribute (w : Workspace) (base : String) (values : StringSet) :
    Untouched w (w.addAttribute base values).2 := by
  have htag : ∀ name, (attributeElement name values).name =
      SectionKind.attributes.definitionTag := fun _ => rfl
  unfold Workspace.addAttribute
  split
  · exact refl w
  · exact addDefinition (htag _) nofun nofun _ _

theorem ensureAttribute {x : Lexicon} {q : FeatureQuery} {name : String}
    (h : w.ensureAttribute x q = .ok (name, w')) : Untouched w w' := by
  unfold Workspace.ensureAttribute at h
  split at h
  · cases h
    exact refl w
  · dsimp only at h
    split at h
    · cases h
    · cases h
      have hadded := addAttribute w ("a_" ++ q.stem) (featureValues x q.key)
      exact ⟨hadded.categories, hadded.macros, hadded.held⟩

theorem ensureGramCat (w : Workspace) (categories : StringSet) :
    Untouched w (w.ensureGramCat categories) := by
  have htag : ∀ values, (attributeElement gramCatName values).name =
      SectionKind.attributes.definitionTag := fun _ => rfl
  unfold Workspace.ensureGramCat
  split
  · exact ⟨TransferDocument.definitions_updateDefinition_of_ne nofun,
      TransferDocument.definitions_updateDefinition_of_ne nofun, rfl⟩
  · exact addDefinition (htag _) nofun nofun _ _

theorem discardRules (w : Workspace) (names : List String) :
    Untouched w (w.discard .rules names) :=
  ⟨definitions_discard nofun, definitions_discard nofun, rfl⟩

theorem definition?_categories (h : Untouched w w') (name : String) :
    w'.document.definition? .categories name = w.document.definition? .categories name := by
  rw [TransferDocument.definition?, h.categories]
  rfl

theorem definition?_macros (h : Untouched w w') (name : String) :
    w'.document.definition? .macros name = w.document.definition? .macros name := by
  rw [TransferDocument.definition?, h.macros]
  rfl

end Untouched

/-- A variable leaves all other definitions alone. -/
theorem definitions_ensureVariable (w : Workspace) (name : String) (comment? : Option String)
    {kind : SectionKind} (hkind : kind ≠ .vars) :
    (w.ensureVariable name comment?).document.definitions kind = w.document.definitions kind := by
  unfold Workspace.ensureVariable
  split
  · rfl
  · exact definitions_define rfl hkind

/-- And so does a category. -/
theorem definitions_ensureCategory (w : Workspace) (x : Lexicon) (category : String)
    (values : List String) {kind : SectionKind} (hkind : kind ≠ .categories) :
    (w.ensureCategory x category values).2.document.definitions kind =
      w.document.definitions kind := by
  unfold Workspace.ensureCategory
  dsimp only
  split
  · rfl
  · exact definitions_define rfl hkind

/-- Making a macro leaves all definitions alone that are neither macros nor variables. -/
theorem definitions_makeMacro (w : Workspace) (m : MacroDefinition) (vs : List String)
    (kind : SectionKind) (hmacros : kind ≠ .macros) (hvars : kind ≠ .vars) :
    (w.makeMacro m vs).document.definitions kind = w.document.definitions kind := by
  have hvariables : ∀ (vs : List String) (w : Workspace),
      (vs.foldl (fun w v => w.ensureVariable v none) w).document.definitions kind =
        w.document.definitions kind := by
    intro vs
    induction vs with
    | nil => exact fun _ => rfl
    | cons v vs ih =>
        exact fun w =>
          (ih (w.ensureVariable v none)).trans (w.definitions_ensureVariable v none hvars)
  refine (hvariables vs (w.ensureMacro m)).trans ?_
  unfold ensureMacro
  split
  · rfl
  · exact definitions_define rfl hmacros

/-- What stands under a name stays there while a workspace grows. -/
theorem Grows.definition?_eq_some {kind : SectionKind} {name : String} {e : Element}
    (h : Grows w w') (hkind : kind ≠ .attributes)
    (he : w.document.definition? kind name = some e) :
    w'.document.definition? kind name = some e := by
  obtain ⟨new, hnew, -⟩ := h.definitions hkind
  rw [TransferDocument.definition?] at he ⊢
  rw [hnew, List.find?_append, he, Option.some_or]

/-- A definition that is added under a new name is found under it. -/
theorem definition?_of_appended {kind : SectionKind} {name : String} {e : Element}
    (h : w'.document.definitions kind = w.document.definitions kind ++ [e])
    (hname : definitionName? kind e = some name)
    (hfresh : name ∉ w.document.definitionNames kind) :
    w'.document.definition? kind name = some e := by
  have hnone : (w.document.definitions kind).find?
      (fun e => definitionName? kind e == some name) = none := by
    rw [List.find?_eq_none]
    intro old hold hnamed
    exact hfresh (mem_definitionNames_of_definitions hold (by simpa using hnamed))
  rw [TransferDocument.definition?, h, List.find?_append, hnone]
  simp [hname]

/-! ## Faithful workspaces -/

/-- All categories and macros are built for what is asked for, and what is held is right.  As long
as no macro of a disjoint set is held, none was built, unless there is a trim. -/
structure Faithful (source target : Lexicon) (asked : Asked) (w : Workspace) :
    Prop where
  categories : ∀ e ∈ w.document.definitions .categories,
    ∃ word, word ∈ asked.words ∧ e = categoryFor source word
  macros : ∀ e ∈ w.document.definitions .macros, ∃ (d : MacroDemand) (name : String),
    d ∈ asked.macros ∧ d.MayHave name ∧ e = (d.macroFor target name).toElement ∧
      (d.isDisjoint = true → w.macros.disjoint = none → asked.trimmed = true)
  lemmaMacros : ∀ entry ∈ w.macros.lemmaMacros,
    .lemmaMacro entry.1.1 entry.1.2 ∈ asked.macros ∧ entry.2 = lemmaHandle entry.1.1 entry.1.2
  disjoint : ∀ set handle, w.macros.disjoint = some (set, handle) →
    (MacroDemand.disjointMacro set).StandsUnder target w.document handle.name

namespace Faithful

variable {source target : Lexicon} {asked : Asked}

theorem of_untouched (hw : w.Faithful source target asked) (h : Untouched w w') :
    w'.Faithful source target asked where
  categories e he := hw.categories e (h.categories ▸ he)
  macros e he := by
    rw [h.held]
    exact hw.macros e (h.macros ▸ he)
  lemmaMacros entry hentry := hw.lemmaMacros entry (h.held ▸ hentry)
  disjoint set handle hheld := by
    rw [MacroDemand.StandsUnder, h.definition?_macros]
    exact hw.disjoint set handle (h.held ▸ hheld)

variable (hu : Unambiguous source target asked)

include hu

/-- A category that stands under the name of a word is the one for the word. -/
theorem category_of_defined (hw : w.Faithful source target asked) {word : SourceWord}
    (hword : word ∈ asked.words)
    (hdefined : word.patternName ∈ w.document.definitionNames .categories) :
    w.document.definition? .categories word.patternName = some (categoryFor source word) := by
  obtain ⟨e, he⟩ := exists_definition? hdefined
  obtain ⟨hmem, hname⟩ := TransferDocument.mem_of_definition? he
  obtain ⟨word', hword', rfl⟩ := hw.categories e hmem
  rw [definitionName?_categoryFor, Option.some.injEq] at hname
  rw [he, hu.categories word' hword' word hword hname]

/-- A macro that stands under the name of a demand is the one that is asked for, unless that of a
disjoint set is held and the demand is for another set. -/
theorem standsUnder_of_defined (hw : w.Faithful source target asked) {d : MacroDemand}
    (hd : d ∈ asked.macros) (hdefined : d.name ∈ w.document.definitionNames .macros)
    (hheld : d.isDisjoint = true → w.macros.disjoint = none) :
    d.StandsUnder target w.document d.name := by
  obtain ⟨e, he⟩ := exists_definition? hdefined
  obtain ⟨hmem, hname⟩ := TransferDocument.mem_of_definition? he
  obtain ⟨d', name, hd', hmay, rfl, htrimmed⟩ := hw.macros e hmem
  rw [definitionName?_macroDefinition, MacroDemand.name_macroFor hmay, Option.some.injEq] at hname
  subst hname
  have hsame := hmay.name_eq
  rw [MacroDemand.StandsUnder, he, ← hsame]
  rw [hu.macros d' hd' d hd hsame fun h h' => htrimmed h (hheld h')]

/-- **A request for a category** is answered with the name of the word, under which the category
for the word stands then. -/
theorem category (hw : w.Faithful source target asked) {word : SourceWord}
    (hword : word ∈ asked.words) :
    (w.ensureCategory source word.categoryName word.fixedValues).1 = word.patternName ∧
      (w.ensureCategory source word.categoryName word.fixedValues).2.Faithful source target asked ∧
      (w.ensureCategory source word.categoryName word.fixedValues).2.document.definition?
        .categories word.patternName = some (categoryFor source word) := by
  have htag : (categoryFor source word).name = SectionKind.categories.definitionTag := rfl
  by_cases hdefined : w.document.contains .categories word.patternName = true
  · have heq : w.ensureCategory source word.categoryName word.fixedValues =
        (word.patternName, w) := if_pos hdefined
    rw [heq]
    exact ⟨rfl, hw, hw.category_of_defined hu hword (TransferDocument.contains_iff.1 hdefined)⟩
  · have heq : w.ensureCategory source word.categoryName word.fixedValues =
        (word.patternName, w.define .categories word.patternName (categoryFor source word)) :=
      if_neg hdefined
    have hcategories : (w.define .categories word.patternName
        (categoryFor source word)).document.definitions .categories =
          w.document.definitions .categories ++ [categoryFor source word] :=
      (TransferDocument.definitions_addDefinition htag).trans (if_pos rfl)
    have hmacros : (w.define .categories word.patternName
        (categoryFor source word)).document.definitions .macros =
          w.document.definitions .macros := definitions_define htag nofun
    rw [heq]
    refine ⟨rfl, ⟨fun e he => ?_, fun e he => hw.macros e (hmacros ▸ he), hw.lemmaMacros,
      fun set handle hheld => ?_⟩, ?_⟩
    · rw [hcategories] at he
      rcases List.mem_append.1 he with hold | hnew
      · exact hw.categories e hold
      · exact ⟨word, hword, List.mem_singleton.1 hnew⟩
    · rw [MacroDemand.StandsUnder, TransferDocument.definition?, hmacros]
      exact hw.disjoint set handle hheld
    · exact definition?_of_appended hcategories (definitionName?_categoryFor source word)
        (not_contains_iff.1 hdefined)

omit hu

/-- A macro is made under a name, unless what stands under it is right already. -/
theorem standsUnder_makeMacro {d : MacroDemand} {name : String} (hmay : d.MayHave name)
    (hstands : name ∈ w.document.definitionNames .macros → d.StandsUnder target w.document name)
    (vs : List String) :
    d.StandsUnder target (w.makeMacro (d.macroFor target name) vs).document name := by
  have hmakes := (w.makes_makeMacro (d.macroFor target name) vs).definitions
  rw [MacroDemand.name_macroFor hmay] at hmakes
  by_cases hdefined : w.document.contains .macros name = true
  · rw [if_pos hdefined] at hmakes
    rw [MacroDemand.StandsUnder, TransferDocument.definition?, hmakes]
    exact hstands (TransferDocument.contains_iff.1 hdefined)
  · rw [if_neg hdefined] at hmakes
    refine definition?_of_appended hmakes ?_ (not_contains_iff.1 hdefined)
    rw [definitionName?_macroDefinition, MacroDemand.name_macroFor hmay]

/-- The macros that there are then. -/
theorem macros_makeMacro (hw : w.Faithful source target asked) {d : MacroDemand}
    (hd : d ∈ asked.macros) {name : String} (hmay : d.MayHave name) (vs : List String)
    {held : Option (DisjointSet × MacroHandle)}
    (hheld : held = none → w.macros.disjoint = none ∧ d.isDisjoint = false) :
    ∀ e ∈ (w.makeMacro (d.macroFor target name) vs).document.definitions .macros,
      ∃ (d : MacroDemand) (name : String), d ∈ asked.macros ∧ d.MayHave name ∧
        e = (d.macroFor target name).toElement ∧
          (d.isDisjoint = true → held = none → asked.trimmed = true) := by
  intro e he
  have hold : e ∈ w.document.definitions .macros →
      ∃ (d : MacroDemand) (name : String), d ∈ asked.macros ∧ d.MayHave name ∧
        e = (d.macroFor target name).toElement ∧
          (d.isDisjoint = true → held = none → asked.trimmed = true) := by
    intro he
    obtain ⟨d', name', hd', hmay', heq, htrimmed⟩ := hw.macros e he
    exact ⟨d', name', hd', hmay', heq, fun h hnone => htrimmed h (hheld hnone).1⟩
  rw [(w.makes_makeMacro (d.macroFor target name) vs).definitions] at he
  split at he
  · exact hold he
  · rcases List.mem_append.1 he with he | he
    · exact hold he
    · refine ⟨d, name, hd, hmay, List.mem_singleton.1 he, fun h hnone => ?_⟩
      rw [(hheld hnone).2] at h
      cases h

include hu

theorem lemmaMacro (hw : w.Faithful source target asked) (hcoherent : w.Coherent)
    {category label : String} (hd : MacroDemand.lemmaMacro category label ∈ asked.macros)
    {handle : MacroHandle} (h : w.ensureLemmaMacro target category label = .ok (handle, w')) :
    w'.Faithful source target asked ∧
      (MacroDemand.lemmaMacro category label).StandsUnder target w'.document handle.name := by
  have hstands : (MacroDemand.lemmaMacro category label).name ∈
      w.document.definitionNames .macros → (MacroDemand.lemmaMacro category label).StandsUnder
        target w.document (MacroDemand.lemmaMacro category label).name :=
    fun hdefined => hw.standsUnder_of_defined hu hd hdefined nofun
  rcases ensureLemmaMacro_cases h with ⟨hfound, rfl⟩ | ⟨rfl, rfl⟩
  · obtain ⟨entry, hentry, rfl⟩ := Option.map_eq_some_iff.1 hfound
    have hkey : entry.1 = (category, label) := by simpa using List.find?_some hentry
    have hmem := List.mem_of_find?_eq_some hentry
    have hname : entry.2.name = (MacroDemand.lemmaMacro category label).name := by
      rw [(hw.lemmaMacros entry hmem).2, hkey]
      rfl
    refine ⟨hw, ?_⟩
    rw [hname]
    exact hstands (hname ▸ hcoherent.lemmaMacros entry hmem)
  · have hmay := MacroDemand.MayHave.own (.lemmaMacro category label)
    have hmakes := w.makes_makeMacro (lemmaMacroFor target category label)
      [(lemmaHandle category label).result]
    have hmade := standsUnder_makeMacro hmay hstands [(lemmaHandle category label).result]
    have hcategories := w.definitions_makeMacro (lemmaMacroFor target category label)
      [(lemmaHandle category label).result] .categories nofun nofun
    refine ⟨⟨fun e he => hw.categories e (hcategories ▸ he), ?_, ?_, ?_⟩, hmade⟩
    · refine hw.macros_makeMacro hd hmay _ fun hnone => ⟨?_, rfl⟩
      exact hmakes.macros ▸ hnone
    · intro entry hentry
      rcases List.mem_append.1 hentry with hold | hnew
      · exact hw.lemmaMacros entry (hmakes.macros ▸ hold)
      · rw [List.mem_singleton.1 hnew]
        exact ⟨hd, rfl⟩
    · exact fun set held hheld => hmakes.grows.definition?_eq_some nofun
        (hw.disjoint set held (hmakes.macros ▸ hheld))

theorem disjointMacro (hw : w.Faithful source target asked) (hcoherent : w.Coherent)
    {set : DisjointSet} (hd : MacroDemand.disjointMacro set ∈ asked.macros) {handle : MacroHandle}
    (h : w.ensureDisjointMacro target set = .ok (handle, w')) :
    w'.Faithful source target asked ∧
      (MacroDemand.disjointMacro set).StandsUnder target w'.document handle.name := by
  rcases ensureDisjointMacro_named h with ⟨hheld, rfl⟩ | ⟨-, name, w₁, hname, rfl, rfl⟩
  · exact ⟨hw, hw.disjoint set handle hheld⟩
  · -- The name is its own, or it is free.
    obtain ⟨hmay, hstands⟩ : (MacroDemand.disjointMacro set).MayHave name ∧
        (name ∈ w.document.definitionNames .macros →
          (MacroDemand.disjointMacro set).StandsUnder target w.document name) := by
      rcases hname with ⟨hnone, rfl, -⟩ | ⟨rfl, -⟩
      · exact ⟨.own (.disjointMacro set), fun hdefined =>
          hw.standsUnder_of_defined hu hd hdefined fun _ => hnone⟩
      · refine ⟨MacroDemand.mayHave_allocate set w.names, fun hdefined => ?_⟩
        exact absurd hdefined (hcoherent.notMem_of_unused (w.names.allocate_fst_notMem _))
    obtain ⟨hdocument, hmacros⟩ : w₁.document = w.document ∧ w₁.macros = w.macros := by
      rcases hname with ⟨-, -, rfl⟩ | ⟨-, rfl⟩
      · exact ⟨rfl, rfl⟩
      · exact ⟨rfl, rfl⟩
    have hw₁ : w₁.Faithful source target asked :=
      hw.of_untouched ⟨by rw [hdocument], by rw [hdocument], hmacros⟩
    rw [← hdocument] at hstands
    have hmakes := w₁.makes_makeMacro (disjointMacroFor target set name)
      [(disjointHandle target set name).result, (disjointNames set).2.2]
    have hmade := standsUnder_makeMacro hmay hstands
      [(disjointHandle target set name).result, (disjointNames set).2.2]
    refine ⟨⟨fun e he => ?_, ?_, ?_, ?_⟩, hmade⟩
    · exact hw₁.categories e (w₁.definitions_makeMacro _ _ .categories nofun nofun ▸ he)
    · exact hw₁.macros_makeMacro hd hmay _ nofun
    · exact fun entry hentry => hw₁.lemmaMacros entry (hmakes.macros ▸ hentry)
    · intro other held hheld
      cases hheld
      exact hmade

/-- **A request for a macro** is answered with a name under which the macro stands then that was
asked for. -/
theorem request (hw : w.Faithful source target asked) (hcoherent : w.Coherent)
    {d : MacroDemand} (hd : d ∈ asked.macros) {handle : MacroHandle}
    (h : d.request target w = .ok (handle, w')) :
    w'.Faithful source target asked ∧
      d.StandsUnder target w'.document handle.name := by
  cases d with
  | lemmaMacro category label => exact hw.lemmaMacro hu hcoherent hd h
  | disjointMacro set => exact hw.disjointMacro hu hcoherent hd h

end Faithful

end Workspace

end TransferRules
