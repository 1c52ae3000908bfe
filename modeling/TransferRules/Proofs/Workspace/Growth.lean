import Mathlib.Logic.Relation
import TransferRules.Proofs.Workspace.Coherence
import TransferRules.Workspace.Category

/-!
# How a workspace grows

Whatever is asked of a workspace outside its rules comes down to a few changes: a name is taken,
a definition is added under a name that no definition of its section has, the category attribute
grows in place, or the name of something defined is held.  All of them keep the workspace
coherent.

## Main Definitions

* `Workspace.Growth` — one change by which a workspace grows
* `Workspace.Grows` — any number of such changes

## Main Statements

* `Workspace.Coherent.grows` — growing keeps a workspace coherent
* `Workspace.Grows.definitions` — definitions only come to the ends of the sections

## Design Notes

That a new name is fresh is part of `Growth`, not of what it preserves: for a name that comes from
the table of used names it follows from coherence, and everywhere else it has just been checked.
-/

namespace TransferRules

open TransferRules.Action
open TransferRules.Markup
open TransferRules.Ordered
open TransferRules.Transfer

namespace Workspace

/-- One change by which a workspace grows outside its rules. -/
inductive Growth : Workspace → Workspace → Prop where
  | take (w : Workspace) (kind : SectionKind) (name : String) (hrules : kind ≠ .rules) :
      Growth w { w with names := w.names.reserve kind name }
  | define (w : Workspace) {kind : SectionKind} {name : String} {e : Element}
      (hrules : kind ≠ .rules) (hattributes : kind ≠ .attributes)
      (htag : e.name = kind.definitionTag) (hname : definitionName? kind e = some name)
      (hfresh : name ∉ w.document.definitionNames kind) :
      Growth w (w.define kind name e)
  | defineAttribute (w : Workspace) {name : String} (values : StringSet)
      (hfresh : name ∉ w.document.definitionNames .attributes) :
      Growth w (w.defineAttribute name values)
  | extendGramCat (w : Workspace) (categories : StringSet)
      (hdefined : gramCatName ∈ w.document.definitionNames .attributes) :
      Growth w (w.ensureGramCat categories)
  | resolve (w : Workspace) (key : FeatureKey) {name : String}
      (hdefined : name ∈ w.document.definitionNames .attributes) :
      Growth w
        { w with
          attributes :=
            { w.attributes with resolved := w.attributes.resolved ++ [(key, name)] } }
  | holdLemmaMacro (w : Workspace) (feature : String × String) {handle : MacroHandle}
      (hdefined : handle.name ∈ w.document.definitionNames .macros) :
      Growth w
        { w with
          macros := { w.macros with lemmaMacros := w.macros.lemmaMacros ++ [(feature, handle)] } }
  | holdDisjointMacro (w : Workspace) (set : DisjointSet) {handle : MacroHandle}
      (hdefined : handle.name ∈ w.document.definitionNames .macros) :
      Growth w { w with macros := { w.macros with disjoint := some (set, handle) } }

/-- Any number of changes by which a workspace grows. -/
abbrev Grows : Workspace → Workspace → Prop := Relation.ReflTransGen Growth

variable {w w' : Workspace} {kind : SectionKind} {name : String}

/-- Every name is a name of a definition still. -/
theorem Growth.mem_definitionNames (h : Growth w w')
    (hmem : name ∈ w.document.definitionNames kind) :
    name ∈ w'.document.definitionNames kind := by
  cases h with
  | define _ _ htag hname _ => exact (mem_definitionNames_define htag hname).2 (.inl hmem)
  | defineAttribute values _ =>
      exact (mem_definitionNames_define rfl (definitionName?_attributeElement _ values)).2
        (.inl hmem)
  | extendGramCat categories hdefined =>
      obtain ⟨tags, attributes, heq, -⟩ := ensureGramCat_eq categories hdefined
      rw [heq, definitionNames_updateDefinition_pushAll]
      exact hmem
  | take _ _ _ => exact hmem
  | resolve _ _ => exact hmem
  | holdLemmaMacro _ _ => exact hmem
  | holdDisjointMacro _ _ => exact hmem

theorem Grows.mem_definitionNames (h : Grows w w')
    (hmem : name ∈ w.document.definitionNames kind) :
    name ∈ w'.document.definitionNames kind := by
  induction h with
  | refl => exact hmem
  | tail _ hstep ih => exact hstep.mem_definitionNames ih

/-- Definitions only come to the end of a section, under names that no definition had.  Attributes
are left out, because one of them may grow in place. -/
theorem Growth.definitions (h : Growth w w') (hkind : kind ≠ .attributes) :
    ∃ new, w'.document.definitions kind = w.document.definitions kind ++ new ∧
      ∀ e ∈ new, ∃ n, definitionName? kind e = some n ∧
        n ∉ w.document.definitionNames kind := by
  have hsame : w'.document.definitions kind = w.document.definitions kind →
      ∃ new, w'.document.definitions kind = w.document.definitions kind ++ new ∧
        ∀ e ∈ new, ∃ n, definitionName? kind e = some n ∧
          n ∉ w.document.definitionNames kind :=
    fun heq => ⟨[], heq.trans (List.append_nil _).symm, nofun⟩
  cases h with
  | @define other name e _ _ htag hname hfresh =>
      have hdefinitions : (w.define other name e).document.definitions kind =
          if kind = other then w.document.definitions other ++ [e]
          else w.document.definitions kind :=
        TransferDocument.definitions_addDefinition htag
      by_cases hother : kind = other
      · subst hother
        refine ⟨[e], hdefinitions.trans (if_pos rfl), fun e' he' => ⟨name, ?_, hfresh⟩⟩
        rw [List.mem_singleton.1 he', hname]
      · exact hsame (hdefinitions.trans (if_neg hother))
  | defineAttribute values _ =>
      exact hsame ((TransferDocument.definitions_addDefinition rfl).trans (if_neg hkind))
  | extendGramCat categories hdefined =>
      obtain ⟨tags, attributes, heq, -⟩ := ensureGramCat_eq categories hdefined
      rw [heq] at hsame ⊢
      exact hsame (TransferDocument.definitions_updateDefinition_of_ne hkind)
  | take _ _ _ => exact hsame rfl
  | resolve _ _ => exact hsame rfl
  | holdLemmaMacro _ _ => exact hsame rfl
  | holdDisjointMacro _ _ => exact hsame rfl

theorem Grows.definitions (h : Grows w w') (hkind : kind ≠ .attributes) :
    ∃ new, w'.document.definitions kind = w.document.definitions kind ++ new ∧
      ∀ e ∈ new, ∃ n, definitionName? kind e = some n ∧
        n ∉ w.document.definitionNames kind := by
  induction h with
  | refl => exact ⟨[], (List.append_nil _).symm, nofun⟩
  | tail hgrows hstep ih =>
      obtain ⟨new, hnew, hfresh⟩ := ih
      obtain ⟨more, hmore, hmoreFresh⟩ := hstep.definitions hkind
      refine ⟨new ++ more, ?_, fun e he => ?_⟩
      · rw [hmore, hnew, List.append_assoc]
      · rcases List.mem_append.1 he with he | he
        · exact hfresh e he
        · obtain ⟨n, hn, hfree⟩ := hmoreFresh e he
          exact ⟨n, hn, fun hmem => hfree (Grows.mem_definitionNames hgrows hmem)⟩

/-- The provenance of what is defined does not change. -/
theorem Growth.provenanceOf? (h : Growth w w') (hmem : name ∈ w.document.definitionNames kind) :
    w'.document.provenanceOf? kind name = w.document.provenanceOf? kind name := by
  cases h with
  | define _ _ _ hname hfresh =>
      refine (TransferDocument.provenanceOf?_addDefinition hname name).trans (if_neg ?_)
      rintro ⟨rfl, rfl⟩
      exact hfresh hmem
  | defineAttribute values hfresh =>
      refine (TransferDocument.provenanceOf?_addDefinition
        (definitionName?_attributeElement _ values) name).trans (if_neg ?_)
      rintro ⟨rfl, rfl⟩
      exact hfresh hmem
  | extendGramCat categories hdefined =>
      obtain ⟨tags, attributes, heq, -⟩ := ensureGramCat_eq categories hdefined
      rw [heq]
      exact TransferDocument.provenanceOf?_updateDefinition name
  | take _ _ _ => rfl
  | resolve _ _ => rfl
  | holdLemmaMacro _ _ => rfl
  | holdDisjointMacro _ _ => rfl

theorem Grows.provenanceOf? (h : Grows w w') (hmem : name ∈ w.document.definitionNames kind) :
    w'.document.provenanceOf? kind name = w.document.provenanceOf? kind name := by
  induction h with
  | refl => rfl
  | tail hgrows hstep ih =>
      exact (hstep.provenanceOf? (Grows.mem_definitionNames hgrows hmem)).trans ih

/-- **Step lemma.**  Every change keeps a workspace coherent. -/
theorem Coherent.growth (hw : w.Coherent) (h : Growth w w') : w'.Coherent := by
  cases h with
  | take kind name _ =>
      exact hw.of_names fun other n hmem => NameTable.mem_used_reserve.2 (.inl hmem)
  | define _ hattributes htag hname _ => exact hw.define hattributes htag hname
  | defineAttribute values _ => exact hw.defineAttribute _ values
  | extendGramCat categories hdefined => exact hw.extendGramCat categories hdefined
  | resolve key hdefined =>
      refine { hw with resolved := fun entry hentry => ?_ }
      rcases List.mem_append.1 hentry with hold | hnew
      · exact hw.resolved entry hold
      · rw [List.mem_singleton.1 hnew]
        exact hdefined
  | holdLemmaMacro feature hdefined =>
      refine { hw with lemmaMacros := fun entry hentry => ?_ }
      rcases List.mem_append.1 hentry with hold | hnew
      · exact hw.lemmaMacros entry hold
      · rw [List.mem_singleton.1 hnew]
        exact hdefined
  | holdDisjointMacro set hdefined =>
      refine { hw with disjoint := fun entry hentry => ?_ }
      cases Option.mem_some.1 hentry
      exact hdefined

/-- **Run lemma.**  Growing keeps a workspace coherent. -/
theorem Coherent.grows (hw : w.Coherent) (h : Grows w w') : w'.Coherent := by
  induction h with
  | refl => exact hw
  | tail _ hstep ih => exact ih.growth hstep

/-- Growing leaves the rules and their names alone. -/
theorem Grows.rules (h : Grows w w') :
    w'.document.childrenOf .rules = w.document.childrenOf .rules ∧
      w'.names.used.get .rules = w.names.used.get .rules := by
  -- Names are only taken for other sections.
  have hreserve : ∀ (names : NameTable) {kind : SectionKind} (name : String), kind ≠ .rules →
      (names.reserve kind name).used.get .rules = names.used.get .rules := by
    intro names kind name hkind
    unfold NameTable.reserve
    split
    · rfl
    · exact PerSection.get_set_of_ne _ _ hkind.symm
  induction h with
  | refl => exact ⟨rfl, rfl⟩
  | tail _ hstep ih =>
      rw [← ih.1, ← ih.2]
      cases hstep with
      | take kind name hrules => exact ⟨rfl, hreserve _ _ hrules⟩
      | define hrules _ _ _ _ =>
          refine ⟨?_, hreserve _ _ hrules⟩
          exact TransferDocument.childrenOf_addDefinition.trans (if_neg hrules.symm)
      | defineAttribute values _ =>
          refine ⟨?_, hreserve _ _ nofun⟩
          exact TransferDocument.childrenOf_addDefinition.trans (if_neg nofun)
      | extendGramCat categories hdefined =>
          obtain ⟨tags, attributes, heq, -⟩ := ensureGramCat_eq categories hdefined
          rw [heq]
          exact ⟨TransferDocument.childrenOf_updateDefinition.trans (if_neg nofun), rfl⟩
      | resolve _ _ => exact ⟨rfl, rfl⟩
      | holdLemmaMacro _ _ => exact ⟨rfl, rfl⟩
      | holdDisjointMacro _ _ => exact ⟨rfl, rfl⟩

end Workspace

end TransferRules
