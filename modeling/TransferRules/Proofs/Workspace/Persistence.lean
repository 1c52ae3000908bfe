import TransferRules.Proofs.Workspace.Changes

/-!
# What lasts in a workspace

While rules are compiled nothing is lost but rules: a name outside the rules stays defined, a
feature stays resolved, an attribute keeps its value set, and the category attribute, the one that
changes in place, only gets more categories.

## Main Definitions

* `Workspace.ListsCategory` — the category attribute lists a category
* `Workspace.Precedes` — what a workspace has in common with a later one

## Main Statements

* `Workspace.Grows.precedes`, `Workspace.Works.precedes` — what is compiled before lasts
* `Workspace.Works.definitions` — and definitions keep their places
* `Workspace.listsCategory_ensureGramCat` — the categories that are asked for are listed
-/

namespace TransferRules

open TransferRules.Markup
open TransferRules.Ordered
open TransferRules.Transfer

namespace Transfer.TransferDocument

variable {d : TransferDocument} {kind other : SectionKind} {name : String} {e : Element}

/-- The first definition of a name stays the first. -/
theorem definition?_addDefinition_of_some (htag : e.name = kind.definitionTag) {first : Element}
    (h : d.definition? other name = some first) :
    (d.addDefinition kind e).definition? other name = some first := by
  unfold definition? at h ⊢
  rw [definitions_addDefinition htag]
  split
  · next hkind =>
    subst hkind
    rw [List.find?_append, h, Option.some_or]
  · exact h

/-- What is changed is the first definition of the name. -/
theorem definition?_updateDefinition {f : Element → Element} (htag : ∀ e, (f e).name = e.name)
    (hname : ∀ e, definitionName? kind (f e) = definitionName? kind e) :
    (d.updateDefinition kind name f).definition? kind name = (d.definition? kind name).map f := by
  rw [definition?_eq, definition?_eq, childrenOf_updateDefinition, if_pos rfl]
  generalize d.childrenOf kind = nodes
  induction nodes with
  | nil => rfl
  | cons node nodes ih =>
      by_cases hnamed : isDefinitionNamed kind name node = true
      · obtain ⟨e, rfl⟩ : ∃ e : Element, node = e.toNode := by
          cases node with
          | element tag attributes children => exact ⟨⟨tag, attributes, children⟩, rfl⟩
          | _ => cases hnamed
        have hchanged : isDefinitionNamed kind name (f e).toNode = true := by
          rw [isDefinitionNamed_toNode] at hnamed ⊢
          rwa [htag, hname]
        rw [updateFirst, if_pos hnamed, Element.element?_toNode]
        simp only [List.find?_cons_of_pos hchanged, List.find?_cons_of_pos hnamed]
        rfl
      · rw [updateFirst, if_neg hnamed, List.find?_cons_of_neg hnamed,
          List.find?_cons_of_neg hnamed, ih]

end Transfer.TransferDocument

theorem AttributeTable.mem_setEntry_of_ne {name : String} {values : StringSet}
    {entries : List (String × StringSet)} {entry : String × StringSet} (hentry : entry ∈ entries)
    (hne : entry.1 ≠ name) : entry ∈ setEntry name values entries := by
  induction entries with
  | nil => cases hentry
  | cons first entries ih =>
      obtain ⟨n, v⟩ := first
      rw [setEntry]
      split
      · next heq =>
        rcases List.mem_cons.1 hentry with rfl | hentry
        · exact absurd heq hne
        · exact List.mem_cons_of_mem _ hentry
      · rcases List.mem_cons.1 hentry with rfl | hentry
        · exact List.mem_cons_self
        · exact List.mem_cons_of_mem _ (ih hentry)

namespace Workspace

variable {w w' w'' : Workspace} {kind : SectionKind} {name : String} {replaced : List String}

/-- The category attribute lists a category. -/
def ListsCategory (w : Workspace) (category : String) : Prop :=
  ∃ e, w.document.definition? .attributes gramCatName = some e ∧ category ∈ attributeItems e

theorem exists_definition? (h : name ∈ w.document.definitionNames kind) :
    ∃ e, w.document.definition? kind name = some e :=
  Option.isSome_iff_exists.1 (TransferDocument.contains_iff.2 h)

/-- The category attribute gets the categories that it does not list yet. -/
theorem definition?_ensureGramCat {e : Element} (categories : StringSet)
    (he : w.document.definition? .attributes gramCatName = some e) :
    (w.ensureGramCat categories).document.definition? .attributes gramCatName =
      some (e.pushAll ((categories.toList.filter fun category =>
        !(attributeItems e).contains category).map attributeItem)) := by
  simp only [ensureGramCat, he]
  rw [TransferDocument.definition?_updateDefinition, he]
  · rfl
  · exact fun _ => rfl
  · exact fun _ => rfl

/-- The categories that are asked for are listed. -/
theorem listsCategory_ensureGramCat {categories : StringSet} {category : String}
    (h : category ∈ categories) : (w.ensureGramCat categories).ListsCategory category := by
  cases he : w.document.definition? .attributes gramCatName with
  | some e =>
      refine ⟨_, definition?_ensureGramCat categories he, ?_⟩
      rw [attributeItems_pushAll]
      by_cases hlisted : category ∈ attributeItems e
      · exact List.mem_append_left _ hlisted
      · exact List.mem_append_right _ (List.mem_filter.2 ⟨h, by simpa using hlisted⟩)
  | none =>
      simp only [ensureGramCat, he]
      generalize hvalues :
        ((w.attributes.values? gramCatName).getD .empty).union categories = values
      refine ⟨attributeElement gramCatName values, ?_, ?_⟩
      · have hname := definitionName?_attributeElement gramCatName values
        unfold TransferDocument.definition? at he ⊢
        show ((w.document.addDefinition .attributes
          (attributeElement gramCatName values)).definitions .attributes).find? _ = _
        rw [TransferDocument.definitions_addDefinition rfl, if_pos rfl, List.find?_append, he]
        simp [hname]
      · rw [attributeItems_attributeElement, ← StringSet.mem_def, ← hvalues]
        exact StringSet.mem_union.2 (.inr h)

/-- What a workspace has in common with a later one, outside the rules. -/
structure Precedes (w w' : Workspace) : Prop where
  names : ∀ kind, kind ≠ .rules → ∀ n ∈ w.document.definitionNames kind,
    n ∈ w'.document.definitionNames kind
  resolved : ∀ entry ∈ w.attributes.resolved, entry ∈ w'.attributes.resolved
  values : ∀ entry ∈ w.attributes.valueSets, entry.1 ≠ gramCatName →
    entry ∈ w'.attributes.valueSets
  categories : ∀ category, w.ListsCategory category → w'.ListsCategory category

namespace Precedes

theorem refl (w : Workspace) : Precedes w w :=
  ⟨fun _ _ _ hn => hn, fun _ hentry => hentry, fun _ hentry _ => hentry, fun _ h => h⟩

theorem trans (h : Precedes w w') (h' : Precedes w' w'') : Precedes w w'' where
  names kind hkind n hn := h'.names kind hkind n (h.names kind hkind n hn)
  resolved entry hentry := h'.resolved entry (h.resolved entry hentry)
  values entry hentry hne := h'.values entry (h.values entry hentry hne) hne
  categories category hlists := h'.categories category (h.categories category hlists)

/-- Where no attribute changes, nothing but names of other sections can be lost. -/
theorem of_attributes (hnames : ∀ kind, kind ≠ .rules → ∀ n ∈ w.document.definitionNames kind,
      n ∈ w'.document.definitionNames kind)
    (hdefinitions : w'.document.definitions .attributes = w.document.definitions .attributes)
    (hattributes : w'.attributes = w.attributes) : Precedes w w' where
  names := hnames
  resolved entry hentry := hattributes ▸ hentry
  values entry hentry _ := hattributes ▸ hentry
  categories category := by
    rintro ⟨e, he, hcategory⟩
    refine ⟨e, ?_, hcategory⟩
    rw [TransferDocument.definition?, hdefinitions]
    exact he

end Precedes

theorem Growth.precedes (h : Growth w w') : Precedes w w' := by
  have hnames : ∀ kind, kind ≠ .rules → ∀ n ∈ w.document.definitionNames kind,
      n ∈ w'.document.definitionNames kind := fun _ _ _ hn => h.mem_definitionNames hn
  cases h with
  | take _ _ _ => exact .of_attributes hnames rfl rfl
  | define _ hattributes htag _ _ =>
      refine .of_attributes hnames ?_ rfl
      exact (TransferDocument.definitions_addDefinition htag).trans (if_neg hattributes.symm)
  | @defineAttribute name values _ =>
      refine ⟨hnames, fun _ hentry => hentry, fun _ hentry _ => List.mem_append_left _ hentry, ?_⟩
      rintro category ⟨e, he, hcategory⟩
      have htag : (attributeElement name values).name = SectionKind.attributes.definitionTag := rfl
      exact ⟨e, TransferDocument.definition?_addDefinition_of_some htag he, hcategory⟩
  | extendGramCat categories hdefined =>
      obtain ⟨e, he⟩ := exists_definition? hdefined
      have hattributes : (w.ensureGramCat categories).attributes =
          w.attributes.setValues gramCatName
            ((StringSet.ofList (attributeItems e)).union categories) := by
        simp only [ensureGramCat, he]
      refine ⟨hnames, fun entry hentry => ?_, fun entry hentry hne => ?_, ?_⟩
      · rw [hattributes]
        exact hentry
      · rw [hattributes]
        exact AttributeTable.mem_setEntry_of_ne hentry hne
      · rintro category ⟨first, hfirst, hcategory⟩
        rw [he] at hfirst
        cases hfirst
        refine ⟨_, definition?_ensureGramCat categories he, ?_⟩
        rw [attributeItems_pushAll]
        exact List.mem_append_left _ hcategory
  | resolve _ _ =>
      exact ⟨hnames, fun _ hentry => List.mem_append_left _ hentry, fun _ hentry _ => hentry,
        fun _ h => h⟩
  | holdLemmaMacro _ _ => exact .of_attributes hnames rfl rfl
  | holdDisjointMacro _ _ => exact .of_attributes hnames rfl rfl

/-- **What was there lasts** while a workspace grows. -/
theorem Grows.precedes (h : Grows w w') : Precedes w w' := by
  induction h with
  | refl => exact .refl w
  | tail _ hgrowth ih => exact ih.trans hgrowth.precedes

theorem Work.precedes (h : Work replaced w w') : Precedes w w' := by
  cases h with
  | request _ hgrows => exact hgrows.precedes
  | take _ _ => exact .of_attributes (fun _ _ _ hn => hn) rfl rfl
  | addRule htag hname _ =>
      refine .of_attributes (fun kind _ n hn => ?_) ?_ rfl
      · exact (mem_definitionNames_define htag hname).2 (.inl hn)
      · exact (TransferDocument.definitions_addDefinition htag).trans (if_neg nofun)
  | dropRule _ =>
      refine .of_attributes (fun kind hkind n hn => ?_) ?_ rfl
      · exact mem_definitionNames_discard.2 ⟨hn, fun h => hkind h.1⟩
      · show (w.document.removeAll .rules [_]).definitions .attributes = _
        rw [TransferDocument.definitions_eq, TransferDocument.childrenOf_removeAll, if_neg nofun,
          TransferDocument.definitions_eq]

/-- **And while rules are added and replaced.** -/
theorem Works.precedes (h : Works replaced w w') : Precedes w w' := by
  induction h with
  | refl => exact .refl w
  | tail _ hwork ih => exact ih.trans hwork.precedes

/-- One change that work makes leaves the definitions of a section where they are, with their
provenance, and new ones come to the end under new names. -/
theorem Work.definitions (h : Work replaced w w') (hattributes : kind ≠ .attributes)
    (hrules : kind ≠ .rules) :
    (∃ new, w'.document.definitions kind = w.document.definitions kind ++ new ∧
      ∀ e ∈ new, ∃ n, definitionName? kind e = some n ∧ n ∉ w.document.definitionNames kind) ∧
    ∀ n ∈ w.document.definitionNames kind,
      w'.document.provenanceOf? kind n = w.document.provenanceOf? kind n := by
  have hsame : w'.document.definitions kind = w.document.definitions kind →
      ∃ new, w'.document.definitions kind = w.document.definitions kind ++ new ∧
        ∀ e ∈ new, ∃ n, definitionName? kind e = some n ∧ n ∉ w.document.definitionNames kind :=
    fun heq => ⟨[], heq.trans (List.append_nil _).symm, nofun⟩
  cases h with
  | request _ hgrows => exact ⟨hgrows.definitions hattributes, fun n hn => hgrows.provenanceOf? hn⟩
  | take _ _ => exact ⟨hsame rfl, fun _ _ => rfl⟩
  | addRule htag hname _ =>
      refine ⟨hsame ((TransferDocument.definitions_addDefinition htag).trans (if_neg hrules)),
        fun n _ => (TransferDocument.provenanceOf?_addDefinition hname n).trans (if_neg ?_)⟩
      exact fun h => hrules h.1
  | dropRule _ =>
      refine ⟨hsame ?_, fun n _ =>
        (TransferDocument.provenanceOf?_removeAll n).trans (if_neg fun h => hrules h.1)⟩
      show (w.document.removeAll .rules [_]).definitions kind = _
      rw [TransferDocument.definitions_eq, TransferDocument.childrenOf_removeAll, if_neg hrules,
        TransferDocument.definitions_eq]

/-- **And so do any number of them.** -/
theorem Works.definitions (h : Works replaced w w') (hattributes : kind ≠ .attributes)
    (hrules : kind ≠ .rules) :
    (∃ new, w'.document.definitions kind = w.document.definitions kind ++ new ∧
      ∀ e ∈ new, ∃ n, definitionName? kind e = some n ∧ n ∉ w.document.definitionNames kind) ∧
    ∀ n ∈ w.document.definitionNames kind,
      w'.document.provenanceOf? kind n = w.document.provenanceOf? kind n := by
  induction h with
  | refl => exact ⟨⟨[], (List.append_nil _).symm, nofun⟩, fun _ _ => rfl⟩
  | tail hworks hwork ih =>
      obtain ⟨⟨new, hnew, hfresh⟩, hprovenance⟩ := ih
      obtain ⟨⟨more, hmore, hmoreFresh⟩, hmoreProvenance⟩ := hwork.definitions hattributes hrules
      have hnames := (Works.precedes hworks).names kind hrules
      refine ⟨⟨new ++ more, by rw [hmore, hnew, List.append_assoc], fun e he => ?_⟩,
        fun n hn => (hmoreProvenance n (hnames n hn)).trans (hprovenance n hn)⟩
      rcases List.mem_append.1 he with he | he
      · exact hfresh e he
      · obtain ⟨n, hn, hfree⟩ := hmoreFresh e he
        exact ⟨n, hn, fun hmem => hfree (hnames n hmem)⟩

end Workspace

end TransferRules
