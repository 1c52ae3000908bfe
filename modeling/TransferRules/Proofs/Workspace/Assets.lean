import Mathlib.Data.Set.Insert
import TransferRules.Proofs.Workspace.GramCat
import TransferRules.Proofs.Workspace.HeldMacros
import TransferRules.Proofs.Workspace.Repetition

/-!
# What a request adds

What a workspace has to offer to later requests are the definitions that are found again by their
names, and the features that are resolved.  Attributes do not count, since they are shared by their
value sets, and neither do rules, which are added whatever there is.  A request that is granted adds
just what it asks for, whether it has to be made or is there already; so to ask twice, or in another
order, makes no difference.

Attributes are only added if no attribute has the values that are wanted, and the category attribute
only grows if it does not list what is wanted.

## Main Definitions

* `Asset`, `Workspace.assets` — what later requests find
* `HasValues` — some attribute lists exactly some tags
* `Workspace.Covers` — the category attribute lists some categories

## Main Statements

* `Workspace.assets_ensureCategory`, `Workspace.assets_ensureVariable`,
  `Workspace.assets_makeMacro`, `Workspace.assets_ensureAttribute` — what is added
* `Workspace.definitions_ensureAttribute_of_hasValues`,
  `Workspace.definitions_ensureGramCat_of_covers` — when attributes stay as they are
-/

namespace TransferRules

open TransferRules.Action
open TransferRules.Compile
open TransferRules.Markup
open TransferRules.Ordered
open TransferRules.Transfer

/-- What later requests find: a definition, by its name, or the attribute of a feature. -/
inductive Asset where
  | definition (kind : SectionKind) (name : String)
  | feature (key : FeatureKey)
  deriving Repr, DecidableEq

/-- Some attribute of a document lists exactly the given tags. -/
def HasValues (d : TransferDocument) (values : StringSet) : Prop :=
  ∃ name, HasAttribute d name values

theorem hasValues_iff {d : TransferDocument} {values : StringSet} : HasValues d values ↔
    ∃ e ∈ d.definitions .attributes, (definitionName? .attributes e).isSome ∧
      StringSet.ofList (attributeItems e) = values := by
  simp only [HasValues, HasAttribute, Option.isSome_iff_exists]
  constructor
  · rintro ⟨name, e, he, hname, hvalues⟩
    exact ⟨e, he, ⟨name, hname⟩, hvalues⟩
  · rintro ⟨e, he, ⟨name, hname⟩, hvalues⟩
    exact ⟨name, e, he, hname, hvalues⟩

instance (d : TransferDocument) (values : StringSet) : Decidable (HasValues d values) :=
  decidable_of_iff _ hasValues_iff.symm

namespace Workspace

variable {w w' : Workspace} {kind : SectionKind} {name : String} {e : Element} {x : Lexicon}

/-- Later requests find an asset. -/
def Has (w : Workspace) : Asset → Prop
  | .definition kind name =>
    kind ≠ .attributes ∧ kind ≠ .rules ∧ name ∈ w.document.definitionNames kind
  | .feature key => key ∈ w.attributes.resolved.map Prod.fst

/-- All that later requests find. -/
def assets (w : Workspace) : Set Asset := {asset | w.Has asset}

@[simp] theorem definition_mem_assets : .definition kind name ∈ w.assets ↔
    kind ≠ .attributes ∧ kind ≠ .rules ∧ name ∈ w.document.definitionNames kind :=
  Iff.rfl

@[simp] theorem feature_mem_assets {key : FeatureKey} :
    .feature key ∈ w.assets ↔ key ∈ w.attributes.resolved.map Prod.fst :=
  Iff.rfl

/-- The category attribute is defined and lists some categories. -/
def Covers (w : Workspace) (categories : StringSet) : Prop :=
  ∃ e, w.document.definition? .attributes gramCatName = some e ∧
    ∀ category ∈ categories, category ∈ attributeItems e

/-! ## Definitions -/

/-- Nothing is added or lost where the names stay the same, and the features. -/
theorem assets_congr (hnames : ∀ kind, kind ≠ .attributes → kind ≠ .rules →
      w'.document.definitionNames kind = w.document.definitionNames kind)
    (hresolved : w'.attributes.resolved = w.attributes.resolved) : w'.assets = w.assets := by
  ext asset
  cases asset with
  | definition kind name =>
      simp only [definition_mem_assets]
      refine and_congr_right fun hattributes => and_congr_right fun hrules => ?_
      rw [hnames kind hattributes hrules]
  | feature key => rw [feature_mem_assets, feature_mem_assets, hresolved]

/-- A workspace that grows loses nothing. -/
theorem Grows.assets_subset (h : w.Grows w') : w.assets ⊆ w'.assets := by
  intro asset hasset
  cases asset with
  | definition kind name =>
      exact ⟨hasset.1, hasset.2.1, h.precedes.names kind hasset.2.1 name hasset.2.2⟩
  | feature key =>
      obtain ⟨entry, hentry, rfl⟩ := List.mem_map.1 (feature_mem_assets.1 hasset)
      exact feature_mem_assets.2 (List.mem_map_of_mem (h.precedes.resolved entry hentry))

theorem assets_define (hattributes : kind ≠ .attributes) (hrules : kind ≠ .rules)
    (htag : e.name = kind.definitionTag) (hname : definitionName? kind e = some name) :
    (w.define kind name e).assets = insert (.definition kind name) w.assets := by
  ext asset
  cases asset with
  | definition other n =>
      rw [Set.mem_insert_iff, definition_mem_assets, definition_mem_assets,
        mem_definitionNames_define htag hname, Asset.definition.injEq]
      constructor
      · rintro ⟨hother, hother', hold | ⟨rfl, rfl⟩⟩
        · exact .inr ⟨hother, hother', hold⟩
        · exact .inl ⟨rfl, rfl⟩
      · rintro (⟨rfl, rfl⟩ | ⟨hother, hother', hold⟩)
        · exact ⟨hattributes, hrules, .inr ⟨rfl, rfl⟩⟩
        · exact ⟨hother, hother', .inl hold⟩
  | feature key =>
      rw [Set.mem_insert_iff, or_iff_right nofun]
      rfl

/-- A definition that is added unless its name is defined is there afterwards. -/
theorem assets_ensure (heq : w' = if w.document.contains kind name then w else w.define kind name e)
    (hattributes : kind ≠ .attributes) (hrules : kind ≠ .rules)
    (htag : e.name = kind.definitionTag) (hname : definitionName? kind e = some name) :
    w'.assets = insert (.definition kind name) w.assets := by
  subst heq
  split
  · next hdefined =>
    exact (Set.insert_eq_of_mem (definition_mem_assets.2
      ⟨hattributes, hrules, TransferDocument.contains_iff.1 hdefined⟩)).symm
  · exact assets_define hattributes hrules htag hname

theorem assets_ensureVariable (w : Workspace) (name : String) (comment? : Option String) :
    (w.ensureVariable name comment?).assets = insert (.definition .vars name) w.assets := by
  have heq : w.ensureVariable name comment? = if w.document.contains .vars name then w
      else w.define .vars name (variableElement name comment?) := rfl
  refine assets_ensure heq nofun nofun rfl ?_
  simp [definitionName?, variableElement, Element.attribute?, SectionKind.nameKey]

theorem assets_ensureCategory (w : Workspace) (x : Lexicon) (category : String)
    (values : List String) : (w.ensureCategory x category values).1 = categoryName category values ∧
      (w.ensureCategory x category values).2.assets =
        insert (.definition .categories (categoryName category values)) w.assets := by
  have heq : (w.ensureCategory x category values).2 =
      if w.document.contains .categories (categoryName category values) then w
      else w.define .categories (categoryName category values)
        (categoryElement (categoryName category values)
          (category :: x.subcategories category) values) :=
    apply_ite Prod.snd _ _ _
  refine ⟨?_, assets_ensure heq nofun nofun rfl ?_⟩
  · unfold ensureCategory
    dsimp only
    split <;> rfl
  · simp [definitionName?, categoryElement, Element.pushAll, Element.attribute?,
      SectionKind.nameKey]

/-- A macro comes with its variables. -/
theorem assets_makeMacro (w : Workspace) (m : MacroDefinition) (vs : List String) :
    (w.makeMacro m vs).assets = w.assets ∪
      {asset | asset = .definition .macros m.name ∨ ∃ v ∈ vs, asset = .definition .vars v} := by
  have hmacro : (w.ensureMacro m).assets = insert (.definition .macros m.name) w.assets := by
    have heq : w.ensureMacro m = if w.document.contains .macros m.name then w
        else w.define .macros m.name m.toElement := rfl
    exact assets_ensure heq nofun nofun rfl (definitionName?_macroDefinition m)
  have hvariables : ∀ (vs : List String) (w : Workspace), ∀ asset,
      asset ∈ (vs.foldl (fun w v => w.ensureVariable v none) w).assets ↔
        asset ∈ w.assets ∨ ∃ v ∈ vs, asset = .definition .vars v := by
    intro vs
    induction vs with
    | nil => simp
    | cons v vs ih =>
        intro w asset
        rw [List.foldl_cons, ih, assets_ensureVariable, Set.mem_insert_iff,
          List.exists_mem_cons_iff, or_comm (a := asset = _), or_assoc]
  ext asset
  rw [makeMacro, hvariables, hmacro, Set.mem_insert_iff, Set.mem_union, Set.mem_ofPred_eq,
    or_comm (a := asset = _), or_assoc]

/-! ## Attributes -/

/-- An attribute that is added is none of the assets. -/
theorem assets_addAttribute (w : Workspace) (base : String) (values : StringSet) :
    (w.addAttribute base values).2.assets = w.assets := by
  have htag : ∀ name, (attributeElement name values).name =
      SectionKind.attributes.definitionTag := fun _ => rfl
  refine assets_congr (fun kind hattributes _ => ?_) (resolved_addAttribute base values)
  unfold addAttribute
  split
  · rfl
  · exact (TransferDocument.definitionNames_addDefinition (htag _)
      (definitionName?_attributeElement _ values)).trans (if_neg hattributes)

/-- The feature that is asked for is resolved. -/
theorem assets_ensureAttribute {q : FeatureQuery} (h : w.ensureAttribute x q = .ok (name, w')) :
    w'.assets = insert (.feature q.key) w.assets := by
  rcases ensureAttribute_cases h with ⟨hresolved, rfl⟩ | ⟨-, -, w₁, hadded, rfl⟩
  · have hkey := List.mem_map_of_mem (f := Prod.fst) (mem_of_find?_key hresolved)
    exact (Set.insert_eq_of_mem (feature_mem_assets.2 hkey)).symm
  · have hsame := w.assets_addAttribute ("a_" ++ q.stem) (featureValues x q.key)
    rw [hadded] at hsame
    rw [← hsame]
    ext asset
    cases asset with
    | definition kind n =>
        rw [Set.mem_insert_iff, or_iff_right nofun]
        rfl
    | feature key =>
        rw [Set.mem_insert_iff, feature_mem_assets, feature_mem_assets, List.map_append,
          List.mem_append, Asset.feature.injEq, or_comm]
        exact or_congr_left List.mem_singleton

theorem assets_ensureGramCat (w : Workspace) (categories : StringSet) :
    (w.ensureGramCat categories).assets = w.assets := by
  refine assets_congr (fun kind hattributes _ => ?_) (resolved_ensureGramCat categories)
  unfold ensureGramCat
  split
  · exact definitionNames_updateDefinition_pushAll _ _
  · next hnone =>
    exact (definitionNames_define rfl (definitionName?_attributeElement _ _)).trans
      (if_neg hattributes)

/-- An attribute with the values of a feature is used for it, and none is added. -/
theorem definitions_ensureAttribute_of_hasValues {q : FeatureQuery} (hw : w.Coherent)
    (h : w.ensureAttribute x q = .ok (name, w'))
    (hvalues : HasValues w.document (featureValues x q.key)) :
    w'.document.definitions .attributes = w.document.definitions .attributes := by
  rcases ensureAttribute_cases h with ⟨-, rfl⟩ | ⟨-, -, w₁, hadded, rfl⟩
  · rfl
  · obtain ⟨listed, hlisted⟩ := hvalues
    have hentry := hw.hasAttribute_iff.1 hlisted
    unfold addAttribute at hadded
    cases hfound : w.attributes.nameOf? (featureValues x q.key) with
    | some found =>
        rw [hfound] at hadded
        cases hadded
        rfl
    | none => exact absurd rfl (AttributeTable.ne_of_nameOf?_eq_none hfound hentry)

/-- The category attribute stays as it is if it lists all that is asked for. -/
theorem definitions_ensureGramCat_of_covers {categories : StringSet} (h : w.Covers categories) :
    (w.ensureGramCat categories).document.definitions .attributes =
      w.document.definitions .attributes := by
  obtain ⟨e, he, hlisted⟩ := h
  have hmissing : (categories.toList.filter fun category =>
      !(attributeItems e).contains category) = [] := by
    rw [List.filter_eq_nil_iff]
    intro category hcategory
    simpa using hlisted category hcategory
  unfold ensureGramCat
  rw [he]
  dsimp only
  rw [hmissing]
  have hsection : (w.document.updateDefinition .attributes gramCatName fun e =>
      e.pushAll (([] : List String).map attributeItem)).sectionOf? .attributes =
        w.document.sectionOf? .attributes :=
    TransferDocument.sectionOf?_updateDefinition_of_id fun e => pushAll_nil e
  rw [TransferDocument.definitions, hsection]
  rfl

end Workspace

/-! ## Attributes that grow -/

/-- How much there is in some attributes: they count, and what they list. -/
def attributeWeight : List Element → Nat
  | [] => 0
  | e :: es => e.children.length + 1 + attributeWeight es

theorem attributeWeight_append (es es' : List Element) :
    attributeWeight (es ++ es') = attributeWeight es + attributeWeight es' := by
  induction es with
  | nil => exact (Nat.zero_add _).symm
  | cons e es ih =>
      rw [List.cons_append, attributeWeight, attributeWeight, ih]
      exact (Nat.add_assoc _ _ _).symm

namespace Workspace

variable {w w' : Workspace}

/-- **Step lemma.**  Attributes stay as they are, or there is more in them. -/
theorem Growth.attributes_eq_or_lt (h : Growth w w') :
    w'.document.definitions .attributes = w.document.definitions .attributes ∨
      attributeWeight (w.document.definitions .attributes) <
        attributeWeight (w'.document.definitions .attributes) := by
  cases h with
  | take _ _ _ => exact .inl rfl
  | define _ hattributes htag _ _ => exact .inl (definitions_define htag hattributes.symm)
  | @defineAttribute name values _ =>
      have htag : (attributeElement name values).name = SectionKind.attributes.definitionTag := rfl
      have hadded : (w.defineAttribute name values).document.definitions .attributes =
          w.document.definitions .attributes ++ [attributeElement name values] :=
        (TransferDocument.definitions_addDefinition htag).trans (if_pos rfl)
      rw [hadded, attributeWeight_append]
      simp [attributeWeight]
  | extendGramCat categories hdefined =>
      obtain ⟨tags, attributes, heq, -⟩ := ensureGramCat_eq categories hdefined
      obtain ⟨before, e, after, hbefore, hafter⟩ :=
        TransferDocument.definitions_updateDefinition
          (f := fun e : Element => e.pushAll (tags.map attributeItem)) (fun _ => rfl) hdefined
      rw [heq]
      dsimp only
      rw [hbefore, hafter]
      cases tags with
      | nil => exact .inl (congrArg (before ++ · :: after) (pushAll_nil e))
      | cons tag tags =>
          right
          simp [attributeWeight_append, attributeWeight, Element.pushAll]
  | resolve _ _ => exact .inl rfl
  | holdLemmaMacro _ _ => exact .inl rfl
  | holdDisjointMacro _ _ => exact .inl rfl

/-- **Run lemma.** -/
theorem Grows.attributes_eq_or_lt (h : Grows w w') :
    w'.document.definitions .attributes = w.document.definitions .attributes ∨
      attributeWeight (w.document.definitions .attributes) <
        attributeWeight (w'.document.definitions .attributes) := by
  induction h with
  | refl => exact .inl rfl
  | tail _ hstep ih =>
      rcases hstep.attributes_eq_or_lt with hsame | hmore
      · rwa [hsame]
      · rcases ih with hsame | hbefore
        · exact .inr (hsame ▸ hmore)
        · exact .inr (hbefore.trans hmore)

end Workspace

end TransferRules
