import TransferRules.Proofs.Workspace.Persistence
import TransferRules.Proofs.Workspace.ValueSets

/-!
# The category attribute

The attribute that lists the grammatical categories is the only definition that changes in place.
It may come from the file, or be defined by the first request for it, and it may be defined by
anyone who happens to ask for an attribute of its name.  From then on it gets just the categories
that are asked for and that it does not list yet, at its end and once each.  So what becomes of it
only depends on what was asked for in all.

## Main Definitions

* `TransferDocument.definitionsNamed` — the definitions of a name
* `Enlarged` — what becomes of the definitions of the category attribute

## Main Statements

* `Enlarged.trans` — asking for some categories and then for others is asking for all of them
* `Enlarged.covers`, `Enlarged.count_le` — all that was asked for is listed, and nothing twice
* `Enlarged.exists_mem_iff` — nothing else is listed that was not listed before
* `enlarges_ensureGramCat` — what a request for categories does
* `Coherent.enlarges_ensureAttribute` and the like — other requests ask for none
-/

namespace TransferRules

open TransferRules.Action
open TransferRules.Markup
open TransferRules.Ordered
open TransferRules.Transfer

theorem Ordered.StringSet.nodup_toList (set : StringSet) : set.toList.Nodup :=
  set.sorted.imp fun {a b} (h : a < b) (heq : a = b) => String.lt_irrefl b (heq ▸ h)

/-! ## Definitions of a name -/

namespace Transfer.TransferDocument

variable {d d' : TransferDocument} {kind other : SectionKind} {name : String} {e : Element}

/-- The definitions of a name, in document order. -/
def definitionsNamed (d : TransferDocument) (kind : SectionKind) (name : String) : List Element :=
  (d.definitions kind).filter fun e => definitionName? kind e == some name

theorem definition?_eq_head? : d.definition? kind name = (d.definitionsNamed kind name).head? :=
  List.head?_filter.symm

theorem definitionsNamed_eq_nil_iff :
    d.definitionsNamed kind name = [] ↔ name ∉ d.definitionNames kind := by
  rw [definitionsNamed, List.filter_eq_nil_iff, mem_definitionNames]
  simp

theorem definitionsNamed_addDefinition (htag : e.name = kind.definitionTag) {n : String}
    (hname : definitionName? kind e = some n) :
    (d.addDefinition kind e).definitionsNamed kind name =
      d.definitionsNamed kind name ++ if n = name then [e] else [] := by
  unfold definitionsNamed
  rw [definitions_addDefinition htag, if_pos rfl, List.filter_append]
  congr 1
  by_cases hn : n = name
  · rw [if_pos hn, List.filter_cons_of_pos (by simp [hname, hn]), List.filter_nil]
  · rw [if_neg hn, List.filter_cons_of_neg (by simp [hname, hn]), List.filter_nil]

/-- They are the nodes of the section that have the name. -/
theorem definitionsNamed_eq : d.definitionsNamed kind name =
    ((d.childrenOf kind).filter (isDefinitionNamed kind name)).filterMap Node.element? := by
  rw [definitionsNamed, definitions_eq, List.filter_filter, List.filter_filterMap,
    List.filterMap_filter]
  congr 1
  funext node
  unfold isDefinitionNamed
  cases node.element? with
  | none => rfl
  | some e =>
      simp only [Option.filter_some, Bool.and_comm]

/-- A change of the first definition of a name leaves the others as they are. -/
theorem definitionsNamed_updateDefinition {f : Element → Element}
    (htag : ∀ e, (f e).name = e.name)
    (hname : ∀ e, definitionName? kind (f e) = definitionName? kind e) :
    (d.updateDefinition kind name f).definitionsNamed kind name =
      (d.definitionsNamed kind name).modifyHead f := by
  rw [definitionsNamed_eq, definitionsNamed_eq, childrenOf_updateDefinition, if_pos rfl]
  induction d.childrenOf kind with
  | nil => rfl
  | cons node nodes ih =>
      unfold updateFirst
      by_cases hnamed : isDefinitionNamed kind name node = true
      · obtain ⟨e, rfl⟩ : ∃ e : Element, node = e.toNode := by
          cases node with
          | element tag attributes children => exact ⟨⟨tag, attributes, children⟩, rfl⟩
          | _ => cases hnamed
        have hchanged : isDefinitionNamed kind name (f e).toNode = true := by
          rw [isDefinitionNamed_toNode] at hnamed ⊢
          rwa [htag, hname]
        rw [if_pos hnamed, Element.element?_toNode]
        simp only [List.filter_cons_of_pos hchanged, List.filter_cons_of_pos hnamed]
        rfl
      · rw [if_neg hnamed, List.filter_cons_of_neg hnamed, List.filter_cons_of_neg hnamed, ih]

end Transfer.TransferDocument

/-! ## How the category attribute grows -/

/-- Some categories are asked for. -/
def IsAsked (asked : List StringSet) (tag : String) : Prop := ∃ categories ∈ asked, tag ∈ categories

/-- What becomes of the definitions of the category attribute when categories are asked for.  The
first one gets those that it does not list yet.  If there is none, the attribute is defined, and may
list more than was asked for then. -/
inductive Enlarged (asked : List StringSet) : List Element → List Element → Prop where
  | extended (e : Element) (others : List Element) {tags : List String} (hnodup : tags.Nodup)
      (htags : ∀ tag, tag ∈ tags ↔ IsAsked asked tag ∧ tag ∉ attributeItems e) :
      Enlarged asked (e :: others) (e.pushAll (tags.map attributeItem) :: others)
  | defined {e : Element} (hnodup : (attributeItems e).Nodup)
      (hlists : ∀ tag, IsAsked asked tag → tag ∈ attributeItems e) : Enlarged asked [] [e]
  | absent (hasked : asked = []) : Enlarged asked [] []

section Enlarging

variable {asked more : List StringSet} {l l' l'' : List Element} {e : Element}

theorem isAsked_append {tag : String} :
    IsAsked (asked ++ more) tag ↔ IsAsked asked tag ∨ IsAsked more tag := by
  simp only [IsAsked, List.mem_append, or_and_right, exists_or]

theorem not_isAsked_nil (tag : String) : ¬ IsAsked [] tag := nofun

theorem pushAll_nil (e : Element) : e.pushAll [] = e := by
  unfold Element.pushAll
  rw [List.map_nil, List.append_nil]

theorem pushAll_append (e : Element) (tags tags' : List String) :
    (e.pushAll (tags.map attributeItem)).pushAll (tags'.map attributeItem) =
      e.pushAll ((tags ++ tags').map attributeItem) := by
  simp only [Element.pushAll, List.map_append, List.append_assoc]

theorem Enlarged.refl (l : List Element) : Enlarged [] l l := by
  cases l with
  | nil => exact .absent rfl
  | cons e others =>
      have hextended : Enlarged [] (e :: others) (e.pushAll (([] : List String).map
          attributeItem) :: others) :=
        .extended e others List.nodup_nil fun tag =>
          ⟨nofun, fun h => absurd h.1 (not_isAsked_nil tag)⟩
      rwa [List.map_nil, pushAll_nil] at hextended

/-- **Asking for some categories and then for others** is asking for all of them. -/
theorem Enlarged.trans (h : Enlarged asked l l') (h' : Enlarged more l' l'') :
    Enlarged (asked ++ more) l l'' := by
  cases h with
  | extended e others hnodup htags =>
      cases h' with
      | @extended _ _ tags' hnodup' htags' =>
        rw [pushAll_append]
        refine .extended e others (List.nodup_append.2 ⟨hnodup, hnodup', ?_⟩) fun tag => ?_
        · rintro tag htag _ htag' rfl
          refine ((htags' tag).1 htag').2 ?_
          rw [attributeItems_pushAll]
          exact List.mem_append_right _ htag
        · rw [List.mem_append, htags, htags', attributeItems_pushAll, List.mem_append,
            isAsked_append, htags]
          tauto
  | @defined e hnodup hlists =>
      cases h' with
      | @extended _ _ tags' hnodup' htags' =>
        refine .defined ?_ fun tag htag => ?_
        · rw [attributeItems_pushAll]
          refine List.nodup_append.2 ⟨hnodup, hnodup', ?_⟩
          rintro tag htag _ htag' rfl
          exact ((htags' tag).1 htag').2 htag
        · rw [attributeItems_pushAll, List.mem_append, htags']
          by_cases hlisted : tag ∈ attributeItems e
          · exact .inl hlisted
          · exact .inr ⟨(isAsked_append.1 htag).resolve_left fun h => hlisted (hlists tag h),
              hlisted⟩
  | absent hasked =>
      subst hasked
      exact h'

/-- Once categories were asked for, the attribute is defined and lists them. -/
theorem Enlarged.covers (h : Enlarged asked l l') {categories : StringSet}
    (hasked : categories ∈ asked) :
    ∃ e, l'.head? = some e ∧ ∀ tag ∈ categories, tag ∈ attributeItems e := by
  have hasks : ∀ tag ∈ categories, IsAsked asked tag := fun tag htag => ⟨_, hasked, htag⟩
  cases h with
  | extended e others hnodup htags =>
      refine ⟨_, rfl, fun tag htag => ?_⟩
      rw [attributeItems_pushAll, List.mem_append, htags]
      by_cases hlisted : tag ∈ attributeItems e
      · exact .inl hlisted
      · exact .inr ⟨hasks tag htag, hlisted⟩
  | defined hnodup hlists => exact ⟨_, rfl, fun tag htag => hlists tag (hasks tag htag)⟩
  | absent hnone =>
      subst hnone
      cases hasked

/-- If the attribute is defined, it lists just what is asked for beside what it lists. -/
theorem Enlarged.exists_mem_iff (h : Enlarged asked l l') (he : l.head? = some e) :
    ∃ e', l'.head? = some e' ∧
      ∀ tag, tag ∈ attributeItems e' ↔ tag ∈ attributeItems e ∨ IsAsked asked tag := by
  cases h with
  | extended first others hnodup htags =>
      cases he
      refine ⟨_, rfl, fun tag => ?_⟩
      rw [attributeItems_pushAll, List.mem_append, htags]
      by_cases hlisted : tag ∈ attributeItems e
      · exact iff_of_true (.inl hlisted) (.inl hlisted)
      · exact or_congr_right (and_iff_left hlisted)
  | defined hnodup hlists => cases he
  | absent hasked => cases he

/-- No tag is listed twice that was not listed as often before. -/
theorem Enlarged.count_le (h : Enlarged asked l l') (he : l'.head? = some e) (tag : String) :
    (attributeItems e).count tag ≤ 1 ∨
      ∃ first, l.head? = some first ∧
        (attributeItems e).count tag = (attributeItems first).count tag := by
  cases h with
  | extended first others hnodup htags =>
      cases he
      rw [attributeItems_pushAll, List.count_append]
      by_cases hlisted : tag ∈ attributeItems first
      · refine .inr ⟨first, rfl, ?_⟩
        rw [List.count_eq_zero_of_not_mem fun htag => ((htags tag).1 htag).2 hlisted, Nat.add_zero]
      · rw [List.count_eq_zero_of_not_mem hlisted, Nat.zero_add]
        exact .inl (List.nodup_iff_count.1 hnodup tag)
  | defined hnodup hlists =>
      cases he
      exact .inl (List.nodup_iff_count.1 hnodup tag)
  | absent hasked => cases he

end Enlarging

/-! ## Requests -/

namespace Workspace

variable {w w' w'' : Workspace} {asked more : List StringSet} {x : Lexicon}

/-- The category attribute of a workspace is enlarged by what is asked for. -/
def Enlarges (asked : List StringSet) (w w' : Workspace) : Prop :=
  Enlarged asked (w.document.definitionsNamed .attributes gramCatName)
    (w'.document.definitionsNamed .attributes gramCatName)

theorem Enlarges.of_definitions
    (h : w'.document.definitions .attributes = w.document.definitions .attributes) :
    Enlarges [] w w' := by
  unfold Enlarges TransferDocument.definitionsNamed
  rw [h]
  exact .refl _

theorem Enlarges.refl (w : Workspace) : Enlarges [] w w := .of_definitions rfl

theorem Enlarges.trans (h : Enlarges asked w w') (h' : Enlarges more w' w'') :
    Enlarges (asked ++ more) w w'' :=
  Enlarged.trans h h'

/-- Where one part asks for nothing, all is asked for by the other. -/
theorem Enlarges.trans_quiet (h : Enlarges asked w w') (h' : Enlarges [] w' w'') :
    Enlarges asked w w'' :=
  List.append_nil asked ▸ h.trans h'

theorem Enlarges.quiet_trans (h : Enlarges [] w w') (h' : Enlarges asked w' w'') :
    Enlarges asked w w'' :=
  h.trans h'

/-- **A request for categories** enlarges the category attribute by them. -/
theorem enlarges_ensureGramCat (w : Workspace) (categories : StringSet) :
    Enlarges [categories] w (w.ensureGramCat categories) := by
  have hasked : ∀ tag, IsAsked [categories] tag ↔ tag ∈ categories := by simp [IsAsked]
  unfold Enlarges
  cases he : w.document.definition? .attributes gramCatName with
  | some e =>
      obtain ⟨others, hothers⟩ :=
        List.head?_eq_some_iff.1 (TransferDocument.definition?_eq_head?.symm.trans he)
      simp only [ensureGramCat, he]
      generalize hmissing : (categories.toList.filter fun category =>
        !(attributeItems e).contains category) = missing
      rw [TransferDocument.definitionsNamed_updateDefinition
        (f := fun e => e.pushAll (missing.map attributeItem)) (fun _ => rfl) (fun _ => rfl),
        hothers, List.modifyHead_cons]
      refine .extended e others ?_ fun tag => ?_
      · rw [← hmissing]
        exact categories.nodup_toList.filter _
      · rw [← hmissing, List.mem_filter, hasked, StringSet.mem_def]
        simp
  | none =>
      have hnil := List.head?_eq_none_iff.1 (TransferDocument.definition?_eq_head?.symm.trans he)
      simp only [ensureGramCat, he, define]
      generalize hvalues : ((w.attributes.values? gramCatName).getD .empty).union categories =
        values
      rw [TransferDocument.definitionsNamed_addDefinition rfl
        (definitionName?_attributeElement gramCatName values), hnil, if_pos rfl]
      refine .defined ?_ fun tag htag => ?_
      · rw [attributeItems_attributeElement]
        exact values.nodup_toList
      · rw [attributeItems_attributeElement, ← StringSet.mem_def, ← hvalues]
        exact StringSet.mem_union.2 (.inr ((hasked tag).1 htag))

/-- Whoever asks for an attribute asks for no categories, but if the attribute gets the name of the
category attribute, this is defined then. -/
theorem Coherent.enlarges_addAttribute (hw : w.Coherent) (base : String) (values : StringSet) :
    Enlarges [] w (w.addAttribute base values).2 := by
  unfold addAttribute
  cases hfound : w.attributes.nameOf? values with
  | some name => exact .refl w
  | none =>
      have hfree : (w.names.allocate .attributes base).1 ∉ w.names.used.get .attributes :=
        w.names.allocate_fst_notMem base
      have hfresh := hw.notMem_of_unused hfree
      simp only [allocate]
      generalize (w.names.allocate .attributes base).1 = name at hfresh ⊢
      unfold Enlarges
      rw [TransferDocument.definitionsNamed_addDefinition rfl
        (definitionName?_attributeElement name values)]
      by_cases hname : name = gramCatName
      · rw [hname] at hfresh
        rw [if_pos hname, TransferDocument.definitionsNamed_eq_nil_iff.2 hfresh]
        refine .defined ?_ fun tag htag => absurd htag (not_isAsked_nil tag)
        rw [attributeItems_attributeElement]
        exact values.nodup_toList
      · rw [if_neg hname, List.append_nil]
        exact .refl _

theorem Coherent.enlarges_ensureAttribute (hw : w.Coherent) {q : FeatureQuery} {name : String}
    (h : w.ensureAttribute x q = .ok (name, w')) : Enlarges [] w w' := by
  rcases ensureAttribute_cases h with ⟨-, rfl⟩ | ⟨-, -, w₁, hadded, rfl⟩
  · exact .refl _
  · have hadd := hw.enlarges_addAttribute ("a_" ++ q.stem) (featureValues x q.key)
    rwa [hadded] at hadd

/-- A definition that is no attribute makes no difference. -/
theorem enlarges_define {kind : SectionKind} {name : String} {e : Element}
    (htag : e.name = kind.definitionTag) (hkind : kind ≠ .attributes) :
    Enlarges [] w (w.define kind name e) :=
  .of_definitions (definitions_define htag hkind.symm)

theorem enlarges_ensureCategory (category : String) (values : List String) :
    Enlarges [] w (w.ensureCategory x category values).2 := by
  unfold ensureCategory
  dsimp only
  split
  · exact .refl w
  · exact enlarges_define rfl nofun

theorem enlarges_ensureVariable (name : String) (comment? : Option String) :
    Enlarges [] w (w.ensureVariable name comment?) := by
  unfold ensureVariable
  split
  · exact .refl w
  · exact enlarges_define rfl nofun

theorem enlarges_makeMacro (w : Workspace) (m : MacroDefinition) (vs : List String) :
    Enlarges [] w (w.makeMacro m vs) := by
  have hmacro : Enlarges [] w (w.ensureMacro m) := by
    unfold ensureMacro
    split
    · exact .refl w
    · exact enlarges_define rfl nofun
  have hvariables : ∀ (vs : List String) (w : Workspace),
      Enlarges [] w (vs.foldl (fun w v => w.ensureVariable v none) w) := by
    intro vs
    induction vs with
    | nil => exact fun w => .refl w
    | cons v vs ih => exact fun w => (enlarges_ensureVariable v none).trans (ih _)
  exact hmacro.trans (hvariables vs _)

theorem enlarges_ensureLemmaMacro {category label : String} {handle : MacroHandle}
    (h : w.ensureLemmaMacro x category label = .ok (handle, w')) : Enlarges [] w w' := by
  rcases ensureLemmaMacro_cases h with ⟨-, rfl⟩ | ⟨rfl, rfl⟩
  · exact .refl _
  · exact w.enlarges_makeMacro _ _

theorem enlarges_ensureDisjointMacro {set : DisjointSet} {handle : MacroHandle}
    (h : w.ensureDisjointMacro x set = .ok (handle, w')) : Enlarges [] w w' := by
  rcases ensureDisjointMacro_cases h with ⟨-, rfl⟩ | ⟨-, name, w₁, -, hw₁, rfl, rfl⟩
  · exact .refl _
  · have hmade := w₁.enlarges_makeMacro (disjointMacroFor x set name)
      [(disjointHandle x set name).result, (disjointNames set).2.2]
    rcases hw₁ with rfl | rfl
    · exact hmade
    · exact hmade

end Workspace

end TransferRules
