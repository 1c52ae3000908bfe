import TransferRules.Proofs.Workspace.Persistence

/-!
# Requests that are made again

When the same rules are compiled once more, every request finds what was made for it the first
time.  A category is found by its name, an attribute because the feature is resolved, a macro
because it is held; and what was refused for want of values or lemmas is refused again.  So a second
round leaves the workspace where the first one left it.

What the first round made is not found by comparing the workspaces step by step: in between, other
rules have been compiled.  Each step of the first round is compared with the end of the round,
and the second round is compared with that end, too.

## Main Definitions

* `Workspace.Resolvable`, `Workspace.Coverable` — a request for an attribute, or for the macro of a
  disjoint set, is granted
* `Workspace.Lasts` — what a workspace has in common with a later one of the same round
* `Workspace.Rests` — a workspace is where a round has left it

## Main Statements

* `resolvable_iff`, `coverable_iff` — whether these requests are granted
* `lasts_ensureAttribute`, `lasts_ensureLemmaMacro`, `lasts_ensureDisjointMacro`,
  `lasts_ensureGramCat` — what a request makes lasts
* `Rests.ensureCategory`, `Rests.ensureAttribute`, `Rests.ensureLemmaMacro`,
  `Rests.ensureDisjointMacro`, `Rests.ensureGramCat` — and it is found again

## Design Notes

The workspaces need not be coherent.  Whether a request is granted depends on the tables, and on the
names that the document defines, whatever else it holds.

The variables come into it only if all features could be resolved the first time.  A macro that was
refused may be granted the second time, when one of its name has been made for another feature, and
then the rule uses variables that it did not use before.
-/

namespace TransferRules

open TransferRules.Compile
open TransferRules.Markup
open TransferRules.Ordered
open TransferRules.Transfer

namespace Transfer.TransferDocument

variable {d : TransferDocument} {kind other : SectionKind} {name : String}

/-- Only the section of a definition changes when it is added. -/
theorem sectionOf?_addDefinition_of_ne {e : Element} (h : other ≠ kind) :
    (d.addDefinition kind e).sectionOf? other = d.sectionOf? other := by
  unfold addDefinition
  rw [sectionOf?_setSection, if_neg h]

/-- And when definitions are removed. -/
theorem sectionOf?_removeDefinition_of_ne (h : other ≠ kind) :
    (d.removeDefinition kind name).sectionOf? other = d.sectionOf? other := by
  unfold removeDefinition
  cases d.sectionOf? kind with
  | none => rfl
  | some s =>
      dsimp only
      split
      · rw [sectionOf?_setSection, if_neg h]
      · rfl

/-- A change that leaves elements as they are changes nothing. -/
theorem updateFirst_of_id {f : Element → Element} (hf : ∀ e, f e = e) (nodes : List Node) :
    updateFirst kind name f nodes = nodes := by
  induction nodes with
  | nil => rfl
  | cons node nodes ih =>
      rw [updateFirst, ih]
      split
      · cases node with
        | element tag attributes children => simp [Node.element?, hf, Element.toNode]
        | _ => rfl
      · rfl

theorem sectionOf?_updateDefinition_of_id {f : Element → Element} (hf : ∀ e, f e = e) :
    (d.updateDefinition kind name f).sectionOf? other = d.sectionOf? other := by
  unfold updateDefinition
  cases hs : d.sectionOf? kind with
  | none => rfl
  | some s =>
      dsimp only
      rw [updateFirst_of_id hf, sectionOf?_setSection]
      split
      · next h => rw [h, hs]
      · rfl

end Transfer.TransferDocument

/-- A feature is resolved if there is an entry for it. -/
theorem AttributeTable.resolved?_isSome_iff {t : AttributeTable} {key : FeatureKey} :
    (t.resolved? key).isSome = true ↔ key ∈ t.resolved.map Prod.fst := by
  simp [resolved?]

/-- A lemma macro is held if there is an entry for its feature. -/
theorem MacroTable.lemmaMacro?_isSome_iff {t : MacroTable} {category label : String} :
    (t.lemmaMacro? category label).isSome = true ↔
      (category, label) ∈ t.lemmaMacros.map Prod.fst := by
  simp [lemmaMacro?]

namespace Workspace

variable {ctx : Lexicons} {clean : Prop} {w w' w'' w₁ last : Workspace} {kind : SectionKind}
  {name : String}

/-! ## Requests that are granted -/

/-- A feature has an attribute, or there are values to make one of. -/
def Resolvable (w : Workspace) (x : Lexicon) (key : FeatureKey) : Prop :=
  (w.attributes.resolved? key).isSome = true ∨ (featureValues x key).isEmpty = false

/-- The macro of a disjoint set is held. -/
def HoldsSet (w : Workspace) (set : DisjointSet) : Prop :=
  ∃ handle, w.macros.disjoint = some (set, handle)

/-- The macro of a disjoint set is held, or there are lemmas to make one of. -/
def Coverable (w : Workspace) (x : Lexicon) (set : DisjointSet) : Prop :=
  w.HoldsSet set ∨
    ∃ pairing ∈ set.pairings, (lemmasByValue (allLemmas x pairing.part)).isEmpty = false

/-- A request for an attribute is granted exactly to these features. -/
theorem resolvable_iff {x : Lexicon} {q : FeatureQuery} :
    (∃ name w', w.ensureAttribute x q = .ok (name, w')) ↔ w.Resolvable x q.key := by
  unfold Workspace.ensureAttribute Resolvable
  cases w.attributes.resolved? q.key with
  | some name => simp
  | none =>
      dsimp only
      cases (featureValues x q.key).isEmpty with
      | true => simp
      | false => simp

/-- What is held for a set is answered. -/
theorem ensureDisjointMacro_of_holdsSet (x : Lexicon) {set : DisjointSet} (h : w.HoldsSet set) :
    ∃ handle, w.ensureDisjointMacro x set = .ok (handle, w) := by
  obtain ⟨handle, hheld⟩ := h
  have hfilter : Option.filter (fun entry => decide (entry.1 = set)) (some (set, handle)) =
      some (set, handle) :=
    Option.filter_some_pos (decide_eq_true rfl)
  refine ⟨handle, ?_⟩
  unfold Workspace.ensureDisjointMacro
  rw [hheld, hfilter]

/-- A request for a disjoint macro is granted exactly to these sets. -/
theorem coverable_iff {x : Lexicon} {set : DisjointSet} :
    (∃ handle w', w.ensureDisjointMacro x set = .ok (handle, w')) ↔ w.Coverable x set := by
  by_cases hheld : w.HoldsSet set
  · obtain ⟨handle, hanswer⟩ := ensureDisjointMacro_of_holdsSet x hheld
    exact iff_of_true ⟨handle, w, hanswer⟩ (.inl hheld)
  · have hfilter : (w.macros.disjoint.filter fun entry => decide (entry.1 = set)) = none := by
      rw [Option.filter_eq_none_iff]
      rintro ⟨held, handle⟩ hentry hset
      obtain rfl : held = set := by simpa using hset
      exact hheld ⟨handle, hentry⟩
    unfold Workspace.ensureDisjointMacro Coverable
    rw [hfilter]
    dsimp only
    rw [List.all_map, or_iff_right hheld]
    split
    · next hnone =>
      rw [List.all_eq_true] at hnone
      refine iff_of_false (by rintro ⟨_, _, ⟨⟩⟩) ?_
      rintro ⟨pairing, hpairing, hknown⟩
      rw [show (lemmasByValue (allLemmas x pairing.part)).isEmpty = true from
        hnone pairing hpairing] at hknown
      cases hknown
    · next hsome =>
      rw [Bool.not_eq_true, List.all_eq_false] at hsome
      obtain ⟨pairing, hpairing, hknown⟩ := hsome
      exact iff_of_true ⟨_, _, rfl⟩ ⟨pairing, hpairing, by simpa using hknown⟩

/-! ## What lasts -/

/-- What a workspace has in common with a later one of the same round.  Nothing is granted later
that was refused, as far as only this disjoint set is asked for. -/
structure Lasts (ctx : Lexicons) (w w' : Workspace) : Prop where
  names : ∀ kind, kind ≠ .rules → ∀ n ∈ w.document.definitionNames kind,
    n ∈ w'.document.definitionNames kind
  categories : ∀ category, w.ListsCategory category → w'.ListsCategory category
  resolved : ∀ key, (w.attributes.resolved? key).isSome = true →
    (w'.attributes.resolved? key).isSome = true
  resolvable : ∀ key, w'.Resolvable ctx.source key → w.Resolvable ctx.source key
  lemmaMacro : ∀ category label, (w.macros.lemmaMacro? category label).isSome = true →
    (w'.macros.lemmaMacro? category label).isSome = true
  holds : ∀ set, ctx.disjoint = some set → w.HoldsSet set → w'.HoldsSet set
  coverable : ∀ set, ctx.disjoint = some set → w'.Coverable ctx.target set →
    w.Coverable ctx.target set

namespace Lasts

theorem trans (h : Lasts ctx w w') (h' : Lasts ctx w' w'') : Lasts ctx w w'' where
  names kind hkind n hn := h'.names kind hkind n (h.names kind hkind n hn)
  categories category hlists := h'.categories category (h.categories category hlists)
  resolved key hkey := h'.resolved key (h.resolved key hkey)
  resolvable key hkey := h.resolvable key (h'.resolvable key hkey)
  lemmaMacro category label hheld :=
    h'.lemmaMacro category label (h.lemmaMacro category label hheld)
  holds set hset hheld := h'.holds set hset (h.holds set hset hheld)
  coverable set hset hset' := h.coverable set hset (h'.coverable set hset hset')

/-- Where the tables stay the same, only the document matters. -/
theorem of_document (hnames : ∀ kind, kind ≠ .rules → ∀ n ∈ w.document.definitionNames kind,
      n ∈ w'.document.definitionNames kind)
    (hcategories : ∀ category, w.ListsCategory category → w'.ListsCategory category)
    (hresolved : w'.attributes.resolved = w.attributes.resolved) (hmacros : w'.macros = w.macros) :
    Lasts ctx w w' where
  names := hnames
  categories := hcategories
  resolved key hkey := by rwa [AttributeTable.resolved?, hresolved]
  resolvable key hkey := by rwa [Resolvable, AttributeTable.resolved?, hresolved] at hkey
  lemmaMacro category label hheld := by rwa [hmacros]
  holds set _ hheld := by rwa [HoldsSet, hmacros]
  coverable set _ hset := by rwa [Coverable, HoldsSet, hmacros] at hset

theorem refl (w : Workspace) : Lasts ctx w w :=
  .of_document (fun _ _ _ hn => hn) (fun _ hlists => hlists) rfl rfl

/-- Nothing is lost when a definition is added. -/
theorem of_addDefinition {e : Element} (htag : e.name = kind.definitionTag)
    (hdocument : w'.document = w.document.addDefinition kind e)
    (hresolved : w'.attributes.resolved = w.attributes.resolved) (hmacros : w'.macros = w.macros) :
    Lasts ctx w w' := by
  have hfound : ∀ other n first, w.document.definition? other n = some first →
      w'.document.definition? other n = some first := by
    intro other n first hfirst
    rw [hdocument]
    exact TransferDocument.definition?_addDefinition_of_some htag hfirst
  refine .of_document (fun other _ n hn => ?_) (fun category => ?_) hresolved hmacros
  · obtain ⟨first, hfirst⟩ := exists_definition? hn
    rw [← TransferDocument.contains_iff, TransferDocument.contains, hfound other n first hfirst]
    rfl
  · rintro ⟨first, hfirst, hcategory⟩
    exact ⟨first, hfound _ _ first hfirst, hcategory⟩

end Lasts

/-! ## Making sure of variables -/

/-- Make sure of some variables. -/
def ensureVariables (w : Workspace) (names : List String) : Workspace :=
  names.foldl (fun w name => w.ensureVariable name none) w

theorem ensureVariables_append (w : Workspace) (vs vs' : List String) :
    w.ensureVariables (vs ++ vs') = (w.ensureVariables vs).ensureVariables vs' :=
  List.foldl_append

theorem lasts_ensureVariable (w : Workspace) (name : String) (comment? : Option String) :
    Lasts ctx w (w.ensureVariable name comment?) := by
  unfold ensureVariable
  split
  · exact .refl w
  · exact .of_addDefinition (e := variableElement name comment?) rfl rfl rfl rfl

theorem lasts_ensureVariables (w : Workspace) (vs : List String) :
    Lasts ctx w (w.ensureVariables vs) := by
  induction vs generalizing w with
  | nil => exact .refl w
  | cons v vs ih => exact (w.lasts_ensureVariable v none).trans (ih _)

/-- They are defined afterwards. -/
theorem ensureVariables_grows (w : Workspace) (vs : List String) :
    Grows w (w.ensureVariables vs) ∧
      ∀ v ∈ vs, v ∈ (w.ensureVariables vs).document.definitionNames .vars := by
  induction vs generalizing w with
  | nil => exact ⟨.refl, nofun⟩
  | cons v vs ih =>
      obtain ⟨hfirst, hdefined⟩ := w.ensureVariable_grows v none
      obtain ⟨hrest, hmem⟩ := ih (w.ensureVariable v none)
      refine ⟨hfirst.trans hrest, fun v' hv' => ?_⟩
      rcases List.mem_cons.1 hv' with rfl | hv'
      · exact hrest.mem_definitionNames hdefined
      · exact hmem v' hv'

/-! ## What a request makes lasts -/

theorem lasts_ensureCategory (w : Workspace) (x : Lexicon) (category : String)
    (values : List String) : Lasts ctx w (w.ensureCategory x category values).2 := by
  unfold Workspace.ensureCategory
  dsimp only
  split
  · exact .refl w
  · exact .of_addDefinition
      (e := categoryElement (categoryName category values) (category :: x.subcategories category)
        values) rfl rfl rfl rfl

theorem lasts_addAttribute (w : Workspace) (base : String) (values : StringSet) :
    Lasts ctx w (w.addAttribute base values).2 := by
  unfold addAttribute
  split
  · exact .refl w
  · exact .of_addDefinition
      (e := attributeElement (w.names.allocate .attributes base).1 values) rfl rfl rfl rfl

/-- A feature that may be resolved is resolved. -/
theorem lasts_resolve {key : FeatureKey} (h : w.Resolvable ctx.source key) (name : String) :
    Lasts ctx w
      { w with
        attributes := { w.attributes with resolved := w.attributes.resolved ++ [(key, name)] } } :=
  { Lasts.refl w with
    resolved := fun other hother => by
      rw [AttributeTable.resolved?_isSome_iff] at hother ⊢
      rw [List.map_append]
      exact List.mem_append_left _ hother
    resolvable := fun other hother => by
      unfold Resolvable at hother
      rw [AttributeTable.resolved?_isSome_iff, List.map_append, List.mem_append] at hother
      rcases hother with (hother | hother) | hvalues
      · exact .inl (AttributeTable.resolved?_isSome_iff.2 hother)
      · rw [List.mem_singleton.1 hother]
        exact h
      · exact .inr hvalues }

/-- A feature that is asked for is resolved from then on. -/
theorem lasts_ensureAttribute {q : FeatureQuery}
    (h : w.ensureAttribute ctx.source q = .ok (name, w')) :
    Lasts ctx w w' ∧ (w'.attributes.resolved? q.key).isSome = true := by
  unfold Workspace.ensureAttribute at h
  cases hfound : w.attributes.resolved? q.key with
  | some found =>
      rw [hfound] at h
      cases h
      exact ⟨.refl w, by rw [hfound]; rfl⟩
  | none =>
      simp only [hfound] at h
      split at h
      · cases h
      · next hvalues =>
        cases h
        have hadded : Lasts ctx w
            (w.addAttribute ("a_" ++ q.stem) (featureValues ctx.source q.key)).2 :=
          w.lasts_addAttribute _ _
        refine ⟨hadded.trans (lasts_resolve (.inr ?_) _), ?_⟩
        · simpa using hvalues
        · rw [AttributeTable.resolved?_isSome_iff, List.map_append]
          exact List.mem_append_right _ (List.mem_singleton_self _)

/-- Making a macro with its variables changes none of the tables. -/
theorem lasts_makeMacro (w : Workspace) (m : Action.MacroDefinition) (vs : List String) :
    Lasts ctx w (w.makeMacro m vs) := by
  have hdefined : Lasts ctx w (w.ensureMacro m) := by
    unfold ensureMacro
    split
    · exact .refl w
    · exact .of_addDefinition (e := m.toElement) rfl rfl rfl rfl
  exact hdefined.trans ((w.ensureMacro m).lasts_ensureVariables vs)

/-- A lemma macro that is held is not forgotten when another one is held. -/
theorem isSome_lemmaMacro?_holdLemmaMacro (feature : String × String) (handle : MacroHandle)
    {category label : String} (hheld : (w.macros.lemmaMacro? category label).isSome = true) :
    ((w.holdLemmaMacro feature handle).macros.lemmaMacro? category label).isSome = true := by
  rw [MacroTable.lemmaMacro?_isSome_iff] at hheld ⊢
  rw [holdLemmaMacro, List.map_append]
  exact List.mem_append_left _ hheld

theorem lasts_holdLemmaMacro (w : Workspace) (feature : String × String) (handle : MacroHandle) :
    Lasts ctx w (w.holdLemmaMacro feature handle) :=
  { Lasts.refl w with
    lemmaMacro := fun _ _ hheld => isSome_lemmaMacro?_holdLemmaMacro feature handle hheld }

/-- A lemma macro that is asked for is held from then on. -/
theorem lasts_ensureLemmaMacro {x : Lexicon} {category label : String} {handle : MacroHandle}
    (h : w.ensureLemmaMacro x category label = .ok (handle, w')) :
    Lasts ctx w w' ∧ (w'.macros.lemmaMacro? category label).isSome = true := by
  rcases ensureLemmaMacro_cases h with ⟨hheld, rfl⟩ | ⟨rfl, rfl⟩
  · exact ⟨.refl w', by rw [hheld]; rfl⟩
  · refine ⟨(w.lasts_makeMacro _ _).trans (lasts_holdLemmaMacro _ _ _), ?_⟩
    rw [MacroTable.lemmaMacro?_isSome_iff, holdLemmaMacro, List.map_append]
    exact List.mem_append_right _ (List.mem_singleton_self _)

/-- What is granted for a set is granted later. -/
theorem Lasts.coverable_of_coverable (h : Lasts ctx w w') {set : DisjointSet}
    (hset : ctx.disjoint = some set) (hw : w.Coverable ctx.target set) :
    w'.Coverable ctx.target set :=
  hw.imp_left (h.holds set hset)

/-- The macro of the set in effect may be held. -/
theorem lasts_holdDisjointMacro {set : DisjointSet} (hset : ctx.disjoint = some set)
    (hw : w.Coverable ctx.target set) (handle : MacroHandle) :
    Lasts ctx w (w.holdDisjointMacro set handle) := by
  have honly : ∀ other, ctx.disjoint = some other → other = set := by
    rintro other hother
    rw [hset] at hother
    exact (Option.some.inj hother).symm
  refine { Lasts.refl w with
    holds := fun other hother _ => ?_
    coverable := fun other hother _ => ?_ }
  · rw [honly other hother]
    exact ⟨handle, rfl⟩
  · rw [honly other hother]
    exact hw

/-- The disjoint macro that is asked for is held from then on. -/
theorem lasts_ensureDisjointMacro {set : DisjointSet} {handle : MacroHandle}
    (hset : ctx.disjoint = some set)
    (h : w.ensureDisjointMacro ctx.target set = .ok (handle, w')) :
    Lasts ctx w w' ∧ w'.HoldsSet set := by
  have hcoverable := coverable_iff.1 ⟨_, _, h⟩
  rcases ensureDisjointMacro_cases h with ⟨hheld, rfl⟩ | ⟨-, name, w₁, -, hw₁, rfl, rfl⟩
  · exact ⟨.refl w', handle, hheld⟩
  · have htaken : Lasts ctx w w₁ := by
      rcases hw₁ with rfl | rfl
      · exact .refl w₁
      · exact .of_document (fun _ _ _ hn => hn) (fun _ hlists => hlists) rfl rfl
    have hmade := htaken.trans (w₁.lasts_makeMacro (disjointMacroFor ctx.target set name)
      [(disjointHandle ctx.target set name).result, (disjointNames set).2.2])
    refine ⟨hmade.trans (lasts_holdDisjointMacro hset ?_ _), _, rfl⟩
    exact hmade.coverable_of_coverable hset hcoverable

/-- The category attribute that is asked for is defined. -/
theorem mem_definitionNames_ensureGramCat (w : Workspace) (categories : StringSet) :
    gramCatName ∈ (w.ensureGramCat categories).document.definitionNames .attributes := by
  cases he : w.document.definition? .attributes gramCatName with
  | some e =>
      rw [← TransferDocument.contains_iff, TransferDocument.contains,
        definition?_ensureGramCat categories he]
      rfl
  | none =>
      simp only [Workspace.ensureGramCat, he]
      exact (mem_definitionNames_define rfl (definitionName?_attributeElement _ _)).2
        (.inr ⟨rfl, rfl⟩)

/-- Asking for categories loses none. -/
theorem lasts_ensureGramCat (w : Workspace) (categories : StringSet) :
    Lasts ctx w (w.ensureGramCat categories) := by
  by_cases hdefined : gramCatName ∈ w.document.definitionNames .attributes
  · have hprecedes := (Growth.extendGramCat w categories hdefined).precedes
    have htables : (w.ensureGramCat categories).attributes.resolved = w.attributes.resolved ∧
        (w.ensureGramCat categories).macros = w.macros := by
      unfold Workspace.ensureGramCat
      split
      · exact ⟨rfl, rfl⟩
      · exact ⟨rfl, rfl⟩
    exact .of_document hprecedes.names hprecedes.categories htables.1 htables.2
  · have hnone : w.document.definition? .attributes gramCatName = none := by
      rw [← Option.not_isSome_iff_eq_none]
      exact not_contains_iff.2 hdefined
    simp only [Workspace.ensureGramCat, hnone]
    exact .of_addDefinition
      (e := attributeElement gramCatName
        (((w.attributes.values? gramCatName).getD .empty).union categories)) rfl rfl rfl rfl

/-! ## Where a round has left the workspace -/

/-- The sections that stay as they are in a second round: rules are added again, and variables may
be defined unless all features could be resolved the first time. -/
def IsSettled (clean : Prop) (kind : SectionKind) : Prop := kind ≠ .rules ∧ (kind = .vars → clean)

/-- A workspace is where a round has left it, but for its rules, and for variables unless all
features could be resolved. -/
structure Rests (clean : Prop) (last w : Workspace) : Prop where
  sections : ∀ kind, IsSettled clean kind →
    w.document.sectionOf? kind = last.document.sectionOf? kind
  resolved : w.attributes.resolved = last.attributes.resolved
  lemmaMacro : ∀ category label, (last.macros.lemmaMacro? category label).isSome = true →
    (w.macros.lemmaMacro? category label).isSome = true
  disjoint : w.macros.disjoint = last.macros.disjoint

namespace Rests

theorem refl (last : Workspace) : Rests clean last last :=
  ⟨fun _ _ => rfl, rfl, fun _ _ hheld => hheld, rfl⟩

/-- A change that is not about what is settled. -/
theorem change (h : Rests clean last w)
    (hsections : ∀ kind, IsSettled clean kind →
      w'.document.sectionOf? kind = w.document.sectionOf? kind)
    (hresolved : w'.attributes.resolved = w.attributes.resolved) (hmacros : w'.macros = w.macros) :
    Rests clean last w' where
  sections kind hkind := (hsections kind hkind).trans (h.sections kind hkind)
  resolved := hresolved.trans h.resolved
  lemmaMacro category label hheld := hmacros ▸ h.lemmaMacro category label hheld
  disjoint := hmacros ▸ h.disjoint

/-- What a section that is settled defines is found. -/
theorem definition? (h : Rests clean last w) (hkind : IsSettled clean kind) (name : String) :
    w.document.definition? kind name = last.document.definition? kind name := by
  rw [TransferDocument.definition?, TransferDocument.definition?, TransferDocument.definitions,
    TransferDocument.definitions, h.sections kind hkind]

theorem contains (h : Rests clean last w) (hkind : IsSettled clean kind)
    (hname : name ∈ last.document.definitionNames kind) :
    w.document.contains kind name = true := by
  rw [TransferDocument.contains, h.definition? hkind]
  exact TransferDocument.contains_iff.2 hname

/-- Rules may be added. -/
theorem addRule (h : Rests clean last w) (names : NameTable) (e : Element) :
    Rests clean last { w with names, document := w.document.addDefinition .rules e } :=
  h.change (fun _ hkind => TransferDocument.sectionOf?_addDefinition_of_ne hkind.1) rfl rfl

/-- And they may be removed. -/
theorem discardRules (h : Rests clean last w) (names : List String) :
    Rests clean last (w.discard .rules names) := by
  refine h.change (fun kind hkind => ?_) rfl rfl
  show (w.document.removeAll .rules names).sectionOf? kind = _
  unfold TransferDocument.removeAll
  generalize w.document = d
  induction names generalizing d with
  | nil => rfl
  | cons name names ih =>
      rw [List.foldl_cons, ih]
      exact TransferDocument.sectionOf?_removeDefinition_of_ne hkind.1

/-- A category that was made is found. -/
theorem ensureCategory (h : Rests clean last w) {x : Lexicon} {category : String}
    {values : List String} (hlasts : Lasts ctx (w₁.ensureCategory x category values).2 last) :
    w.ensureCategory x category values = ((w₁.ensureCategory x category values).1, w) := by
  have hanswer : (w₁.ensureCategory x category values).1 = categoryName category values := by
    unfold Workspace.ensureCategory
    dsimp only
    split <;> rfl
  have hdefined := hlasts.names .categories nofun _ (w₁.ensureCategory_grows x category values).2
  have hsettled : IsSettled clean .categories := ⟨nofun, nofun⟩
  rw [hanswer] at hdefined ⊢
  exact if_pos (h.contains hsettled hdefined)

/-- An attribute of a feature that was resolved is found. -/
theorem ensureAttribute (h : Rests clean last w) {q : FeatureQuery}
    (hok : w₁.ensureAttribute ctx.source q = .ok (name, w')) (hlasts : Lasts ctx w' last) :
    ∃ found, w.ensureAttribute ctx.source q = .ok (found, w) := by
  have hresolved := hlasts.resolved _ (lasts_ensureAttribute hok).2
  rw [AttributeTable.resolved?, ← h.resolved] at hresolved
  obtain ⟨found, hfound⟩ := Option.isSome_iff_exists.1 hresolved
  refine ⟨found, ?_⟩
  unfold Workspace.ensureAttribute
  rw [AttributeTable.resolved?, hfound]

/-- A feature that was not resolved is not resolved. -/
theorem ensureAttribute_error (h : Rests clean last w) {q : FeatureQuery} {issue : Issue}
    (herror : w₁.ensureAttribute ctx.source q = .error issue) (hlasts : Lasts ctx w₁ last) :
    ∃ found, w.ensureAttribute ctx.source q = .error found := by
  cases hanswer : w.ensureAttribute ctx.source q with
  | error found => exact ⟨found, rfl⟩
  | ok answer =>
      have hresolvable := resolvable_iff.1 ⟨_, _, hanswer⟩
      rw [Resolvable, AttributeTable.resolved?, h.resolved] at hresolvable
      obtain ⟨name, w', hok⟩ := resolvable_iff.2 (hlasts.resolvable _ hresolvable)
      rw [herror] at hok
      cases hok

/-- A variable that was defined need not be defined. -/
theorem ensureVariable (h : Rests clean last w)
    (hdefined : clean → name ∈ last.document.definitionNames .vars) (comment? : Option String) :
    Rests clean last (w.ensureVariable name comment?) := by
  unfold Workspace.ensureVariable
  split
  · exact h
  · next hmissing =>
    refine h.change (fun kind hkind => ?_) rfl rfl
    refine TransferDocument.sectionOf?_addDefinition_of_ne ?_
    rintro rfl
    -- The variables are settled, so that the name is there.
    exact hmissing (h.contains hkind (hdefined (hkind.2 rfl)))

theorem ensureVariables {vs : List String} (h : Rests clean last w)
    (hdefined : clean → ∀ v ∈ vs, v ∈ last.document.definitionNames .vars) :
    Rests clean last (w.ensureVariables vs) := by
  induction vs generalizing w with
  | nil => exact h
  | cons v vs ih =>
      refine ih (h.ensureVariable (fun hclean => ?_) none) fun hclean v' hv' => ?_
      · exact hdefined hclean v List.mem_cons_self
      · exact hdefined hclean v' (List.mem_cons_of_mem _ hv')

/-- A lemma macro that was granted is held. -/
theorem ensureLemmaMacro (h : Rests clean last w) {x : Lexicon} {category label : String}
    {handle : MacroHandle} (hok : w₁.ensureLemmaMacro x category label = .ok (handle, w'))
    (hlasts : Lasts ctx w' last) :
    ∃ found, w.ensureLemmaMacro x category label = .ok (found, w) := by
  have hgranted : Lasts ctx w₁ w' ∧ _ := lasts_ensureLemmaMacro hok
  have hheld := hlasts.lemmaMacro _ _ hgranted.2
  obtain ⟨found, hfound⟩ := Option.isSome_iff_exists.1 (h.lemmaMacro _ _ hheld)
  refine ⟨found, ?_⟩
  unfold Workspace.ensureLemmaMacro
  rw [hfound]

/-- One that was refused may be granted, but only because there is a macro of its name. -/
theorem ensureLemmaMacro_of_error (h : Rests clean last w) (hunclean : ¬ clean) {x : Lexicon}
    {category label : String} {handle : MacroHandle} {issue : Issue}
    (herror : w₁.ensureLemmaMacro x category label = .error issue)
    (hok : w.ensureLemmaMacro x category label = .ok (handle, w')) : Rests clean last w' := by
  have hunknown : (lemmasByValue (x.lemmas category label)).isEmpty = true := by
    unfold Workspace.ensureLemmaMacro at herror
    split at herror
    · cases herror
    · dsimp only at herror
      split at herror
      · next hnone => exact (Bool.and_eq_true_iff.1 hnone).2
      · cases herror
  unfold Workspace.ensureLemmaMacro at hok
  split at hok
  · cases hok
    exact h
  · dsimp only at hok
    rw [hunknown, Bool.and_true] at hok
    split at hok
    · cases hok
    · next hfound =>
      have hunchanged : ∀ m : Action.MacroDefinition, m.name = (lemmaMacroNames category label).1 →
          w.ensureMacro m = w := fun m hm => if_pos (by simpa [hm] using hfound)
      cases hok
      rw [hunchanged _ rfl]
      have hvariable :
          Rests clean last (w.ensureVariable (lemmaMacroNames category label).2 none) :=
        h.ensureVariable (fun hclean => absurd hclean hunclean) none
      exact { hvariable with
        lemmaMacro := fun category label hheld =>
          isSome_lemmaMacro?_holdLemmaMacro _ _ (hvariable.lemmaMacro category label hheld) }

/-- The macro of the disjoint set that was granted is held. -/
theorem ensureDisjointMacro (h : Rests clean last w) {set : DisjointSet} {handle : MacroHandle}
    (hset : ctx.disjoint = some set)
    (hok : w₁.ensureDisjointMacro ctx.target set = .ok (handle, w')) (hlasts : Lasts ctx w' last) :
    ∃ found, w.ensureDisjointMacro ctx.target set = .ok (found, w) := by
  obtain ⟨found, hfound⟩ := hlasts.holds set hset (lasts_ensureDisjointMacro hset hok).2
  exact ensureDisjointMacro_of_holdsSet _ ⟨found, h.disjoint.trans hfound⟩

/-- One that was refused is refused. -/
theorem ensureDisjointMacro_error (h : Rests clean last w) {set : DisjointSet} {issue : Issue}
    (hset : ctx.disjoint = some set)
    (herror : w₁.ensureDisjointMacro ctx.target set = .error issue) (hlasts : Lasts ctx w₁ last) :
    ∃ found, w.ensureDisjointMacro ctx.target set = .error found := by
  cases hanswer : w.ensureDisjointMacro ctx.target set with
  | error found => exact ⟨found, rfl⟩
  | ok answer =>
      have hcoverable := coverable_iff.1 ⟨_, _, hanswer⟩
      rw [Coverable, HoldsSet, h.disjoint] at hcoverable
      obtain ⟨handle, w', hok⟩ := coverable_iff.2 (hlasts.coverable set hset hcoverable)
      rw [herror] at hok
      cases hok

/-- The categories that were asked for are listed. -/
theorem ensureGramCat (h : Rests clean last w) {categories : StringSet}
    (hlasts : Lasts ctx (w₁.ensureGramCat categories) last) :
    Rests clean last (w.ensureGramCat categories) := by
  have hsettled : IsSettled clean .attributes := ⟨nofun, nofun⟩
  obtain ⟨e, he⟩ := exists_definition? (hlasts.names .attributes nofun _
    (w₁.mem_definitionNames_ensureGramCat categories))
  have hlisted : ∀ category ∈ categories, category ∈ attributeItems e := by
    intro category hcategory
    obtain ⟨first, hfirst, hmem⟩ :=
      hlasts.categories category (listsCategory_ensureGramCat hcategory)
    rw [he] at hfirst
    cases hfirst
    exact hmem
  have hmissing : (categories.toList.filter fun category =>
      !(attributeItems e).contains category) = [] := by
    rw [List.filter_eq_nil_iff]
    intro category hcategory
    simpa using hlisted category hcategory
  have hfound := (h.definition? hsettled gramCatName).trans he
  unfold Workspace.ensureGramCat
  rw [hfound]
  dsimp only
  rw [hmissing]
  refine h.change (fun kind _ => ?_) rfl rfl
  refine TransferDocument.sectionOf?_updateDefinition_of_id fun e => ?_
  rw [List.map_nil, Element.pushAll, List.map_nil, List.append_nil]

end Rests

end Workspace

end TransferRules
