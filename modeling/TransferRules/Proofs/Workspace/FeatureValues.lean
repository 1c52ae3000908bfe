import TransferRules.Proofs.Workspace.GramCat

/-!
# What the attribute of a feature lists

The attribute for which a feature was resolved is held without its values, so it has to go on
listing them.  All attributes do but one: the category attribute may have been taken for a feature
that happens to have the same values, and gets more items later.

## Main Definitions

* `Provides` — an attribute lists the values of a feature, and no others unless it lists categories
* `Workspace.ListsValues` — all features that are resolved have such attributes

## Main Statements

* `Provides.later` — an attribute goes on listing the values
* `Request.listsValues` — whatever is asked for, all features have such attributes
-/

namespace TransferRules

open TransferRules.Compile
open TransferRules.Markup
open TransferRules.Ordered
open TransferRules.Transfer

/-- The values of a feature in the language that is asked about it. -/
def valuesIn (source target : Lexicon) (key : FeatureKey) : StringSet :=
  featureValues (if key.isSource then source else target) key

/-- An attribute lists all of the given values, and if it is not the category attribute, no
others. -/
def Provides (d : TransferDocument) (name : String) (values : StringSet) : Prop :=
  ∃ listed, HasAttribute d name listed ∧ (∀ tag ∈ values, tag ∈ listed) ∧
    (name ≠ gramCatName → listed = values)

variable {d : TransferDocument} {name : String} {values : StringSet}

theorem HasAttribute.provides (h : HasAttribute d name values) : Provides d name values :=
  ⟨values, h, fun _ htag => htag, fun _ => rfl⟩

theorem hasAttribute_iff_mem_definitionsNamed : HasAttribute d name values ↔
    ∃ e ∈ d.definitionsNamed .attributes name, StringSet.ofList (attributeItems e) = values := by
  simp only [HasAttribute, TransferDocument.definitionsNamed, List.mem_filter, beq_iff_eq,
    and_assoc]

namespace Workspace

variable {w w' : Workspace} {asked : List StringSet}

/-- The category attribute goes on listing what it lists. -/
theorem Enlarges.hasAttribute (h : Enlarges asked w w')
    (hattribute : HasAttribute w.document gramCatName values) :
    ∃ listed, HasAttribute w'.document gramCatName listed ∧ ∀ tag ∈ values, tag ∈ listed := by
  simp only [hasAttribute_iff_mem_definitionsNamed] at hattribute ⊢
  obtain ⟨e, he, rfl⟩ := hattribute
  unfold Enlarges at h
  generalize w.document.definitionsNamed .attributes gramCatName = before at h he
  generalize w'.document.definitionsNamed .attributes gramCatName = after at h ⊢
  cases h with
  | extended first others hnodup htags =>
      rcases List.mem_cons.1 he with rfl | he
      · refine ⟨_, ⟨_, List.mem_cons_self, rfl⟩, fun tag htag => ?_⟩
        rw [StringSet.mem_ofList] at htag ⊢
        rw [attributeItems_pushAll]
        exact List.mem_append_left _ htag
      · exact ⟨_, ⟨e, List.mem_cons_of_mem _ he, rfl⟩, fun tag htag => htag⟩
  | defined _ _ => cases he
  | absent _ => cases he

end Workspace

/-- **An attribute goes on listing the values of a feature.** -/
theorem Provides.later {w w' : Workspace} {asked : List StringSet}
    (h : Provides w.document name values) (hw : w.Coherent) (hw' : w'.Coherent)
    (hprecedes : w.Precedes w') (henlarges : w.Enlarges asked w') :
    Provides w'.document name values := by
  obtain ⟨listed, hattribute, hlists, hexactly⟩ := h
  by_cases hname : name = gramCatName
  · subst hname
    obtain ⟨more, hmore, hgrown⟩ := henlarges.hasAttribute hattribute
    exact ⟨more, hmore, fun tag htag => hgrown tag (hlists tag htag), fun hne => absurd rfl hne⟩
  · obtain rfl := hexactly hname
    refine HasAttribute.provides (hw'.hasAttribute_iff.2 ?_)
    exact hprecedes.values _ (hw.hasAttribute_iff.1 hattribute) hname

namespace Workspace

variable {w w' : Workspace} {source target : Lexicon}

/-- Every feature that is resolved has an attribute that lists its values. -/
def ListsValues (w : Workspace) (source target : Lexicon) : Prop :=
  ∀ entry ∈ w.attributes.resolved, Provides w.document entry.2 (valuesIn source target entry.1)

/-- It only depends on the attributes. -/
theorem ListsValues.of_definitions (h : w.ListsValues source target)
    (hdefinitions : w'.document.definitions .attributes = w.document.definitions .attributes)
    (hresolved : w'.attributes.resolved = w.attributes.resolved) :
    w'.ListsValues source target := by
  intro entry hentry
  obtain ⟨listed, hattribute, hlists⟩ := h entry (hresolved ▸ hentry)
  refine ⟨listed, ?_, hlists⟩
  unfold HasAttribute
  rw [hdefinitions]
  exact hattribute

end Workspace

/-- What a request asks for, if anything, enlarges the category attribute. -/
theorem Request.enlarges {ctx : Lexicons} {w w' : Workspace} (hw : w.Coherent)
    (h : Request ctx w w') : ∃ asked, w.Enlarges asked w' := by
  cases h with
  | needCategory category values => exact ⟨[], Workspace.enlarges_ensureCategory _ _⟩
  | needAttribute h => exact ⟨[], hw.enlarges_ensureAttribute h⟩
  | needValues base values => exact ⟨[], hw.enlarges_addAttribute base values⟩
  | needVariable name comment? => exact ⟨[], Workspace.enlarges_ensureVariable _ _⟩
  | needLemmaMacro h => exact ⟨[], Workspace.enlarges_ensureLemmaMacro h⟩
  | needDisjointMacro _ h => exact ⟨[], Workspace.enlarges_ensureDisjointMacro h⟩
  | needGramCat categories => exact ⟨[categories], w.enlarges_ensureGramCat categories⟩

/-- A feature is only resolved by asking for its attribute. -/
theorem Request.resolved {ctx : Lexicons} {w w' : Workspace} (h : Request ctx w w') :
    w'.attributes.resolved = w.attributes.resolved ∨
      ∃ q name, w.ensureAttribute (if q.key.isSource then ctx.source else ctx.target) q =
          .ok (name, w') ∧ w.attributes.resolved? q.key = none ∧
        w'.attributes.resolved = w.attributes.resolved ++ [(q.key, name)] := by
  cases h with
  | needCategory category values =>
      exact .inl (congrArg _ (Workspace.attributes_ensureCategory _ _))
  | @needAttribute _ q name h =>
      rcases Workspace.ensureAttribute_cases h with ⟨-, rfl⟩ | ⟨hfirst, -, w₁, hadded, rfl⟩
      · exact .inl rfl
      · have hsame := Workspace.resolved_addAttribute (w := w) ("a_" ++ q.stem)
          (featureValues (if q.key.isSource then ctx.source else ctx.target) q.key)
        rw [hadded] at hsame
        exact .inr ⟨q, name, h, hfirst, congrArg (· ++ [(q.key, name)]) hsame⟩
  | needValues base values => exact .inl (Workspace.resolved_addAttribute _ _)
  | needVariable name comment? =>
      exact .inl (congrArg _ (Workspace.attributes_ensureVariable _ _))
  | needLemmaMacro h => exact .inl (congrArg _ (Workspace.attributes_ensureLemmaMacro h))
  | needDisjointMacro _ h => exact .inl (congrArg _ (Workspace.attributes_ensureDisjointMacro h))
  | needGramCat categories => exact .inl (Workspace.resolved_ensureGramCat _)

/-- **Whatever is asked for**, all features that are resolved have attributes that list their
values. -/
theorem Request.listsValues {ctx : Lexicons} {w w' : Workspace} (h : Request ctx w w')
    (hw : w.Coherent) (hlists : w.ListsValues ctx.source ctx.target) :
    w'.ListsValues ctx.source ctx.target := by
  have hgrows := h.grows hw
  have hw' := hw.grows hgrows
  obtain ⟨asked, henlarges⟩ := h.enlarges hw
  have hold : ∀ entry ∈ w.attributes.resolved,
      Provides w'.document entry.2 (valuesIn ctx.source ctx.target entry.1) := fun entry hentry =>
    (hlists entry hentry).later hw hw' hgrows.precedes henlarges
  intro entry hentry
  rcases h.resolved with heq | ⟨q, name, hok, hfirst, heq⟩
  · exact hold entry (heq ▸ hentry)
  · rcases List.mem_append.1 (heq ▸ hentry) with hentry | hentry
    · exact hold entry hentry
    · rw [List.mem_singleton.1 hentry]
      exact (hw.ensureAttribute_lists hok hfirst).provides

end TransferRules
