import TransferRules.Proofs.Transfer.Loading
import TransferRules.Proofs.Transfer.Names
import TransferRules.Workspace.Attribute
import TransferRules.Workspace.Macro

/-!
# Workspaces in step

A workspace is a document and three tables that are updated one by one.  It is coherent if the
tables say what the document says: every name of a definition has a provenance and is in use,
the table of attributes is the one that a fresh look at the document would give, and whatever
was resolved is still defined.

## Main Definitions

* `Workspace.Coherent` — the tables of a workspace are in step with its document

## Main Statements

* `Workspace.Coherent.ofDocument` — a loaded document gives a coherent workspace
* `Workspace.Coherent.define`, `Workspace.Coherent.defineAttribute` — so does a new definition
* `Workspace.Coherent.extendGramCat` — and so does the category attribute when it grows in place
-/

namespace TransferRules

open TransferRules.Markup
open TransferRules.Ordered
open TransferRules.Transfer

/-! ## Value sets of attributes -/

/-- What the table of attributes says about a node: only named attributes are listed. -/
def valueSetOf? (node : Node) : Option (String × StringSet) :=
  match node.element? with
  | some e =>
    if e.name = SectionKind.attributes.definitionTag then
      (definitionName? .attributes e).map fun name => (name, StringSet.ofList (attributeItems e))
    else none
  | none => none

namespace AttributeTable

/-- The value sets of a document are those of the nodes of one section. -/
theorem valueSets_ofDocument (d : TransferDocument) :
    (ofDocument d).valueSets = (d.childrenOf .attributes).filterMap valueSetOf? := by
  simp only [ofDocument, TransferDocument.definitions_eq, List.filterMap_filter,
    List.filterMap_filterMap]
  congr 1
  funext node
  unfold valueSetOf?
  cases node.element? with
  | none => rfl
  | some e => simp [definitionName?, SectionKind.nameKey]

/-- The attributes of the table are the named ones of the document, in their order. -/
theorem map_fst_valueSets_ofDocument (d : TransferDocument) :
    (ofDocument d).valueSets.map Prod.fst = d.definitionNames .attributes := by
  simp only [ofDocument, TransferDocument.definitionNames, List.map_filterMap]
  congr 1
  funext e
  simp [definitionName?, SectionKind.nameKey, Function.comp_def]

theorem setEntry_of_notMem {name : String} {values : StringSet}
    {entries : List (String × StringSet)} (h : name ∉ entries.map Prod.fst) :
    setEntry name values entries = entries ++ [(name, values)] := by
  induction entries with
  | nil => rfl
  | cons entry entries ih =>
      obtain ⟨n, v⟩ := entry
      rw [List.map_cons, List.mem_cons, not_or] at h
      rw [setEntry, if_neg fun heq => h.1 heq.symm, ih h.2, List.cons_append]

end AttributeTable

theorem attributeItems_pushAll (e : Element) (tags : List String) :
    attributeItems (e.pushAll (tags.map attributeItem)) = attributeItems e ++ tags := by
  have hitems : (tags.map attributeItem).filterMap (fun item => item.attribute? "tags") = tags := by
    rw [List.filterMap_map]
    simp [Function.comp_def, attributeItem, Element.attribute?]
  have hnamed : ((tags.map attributeItem).map Element.toNode).filterMap Node.element? =
      tags.map attributeItem := by
    rw [List.filterMap_map]
    simp [Function.comp_def]
  have hfilter : (tags.map attributeItem).filter (fun item => item.name == "attr-item") =
      tags.map attributeItem := by
    rw [List.filter_eq_self]
    intro item hitem
    obtain ⟨tag, -, rfl⟩ := List.mem_map.1 hitem
    rfl
  simp only [attributeItems, Element.childrenNamed, Element.elements, Element.pushAll,
    List.filterMap_append, List.filter_append]
  rw [hnamed, hfilter, hitems]

theorem attributeItems_attributeElement (name : String) (values : StringSet) :
    attributeItems (attributeElement name values) = values.toList := by
  rw [attributeElement, attributeItems_pushAll]
  rfl

theorem ofList_toList (values : StringSet) : StringSet.ofList values.toList = values :=
  StringSet.ext fun _ => StringSet.mem_ofList

theorem definitionName?_attributeElement (name : String) (values : StringSet) :
    definitionName? .attributes (attributeElement name values) = some name := by
  simp [definitionName?, attributeElement, Element.pushAll, Element.attribute?, SectionKind.nameKey]

theorem valueSetOf?_toNode {e : Element} {name : String}
    (htag : e.name = SectionKind.attributes.definitionTag)
    (hname : definitionName? .attributes e = some name) :
    valueSetOf? e.toNode = some (name, StringSet.ofList (attributeItems e)) := by
  simp [valueSetOf?, htag, hname]

/-- An attribute that gets more items lists their tags too. -/
theorem valueSetOf?_pushAll {e : Element} {name : String}
    (htag : e.name = SectionKind.attributes.definitionTag)
    (hname : definitionName? .attributes e = some name) (tags : List String) :
    valueSetOf? (e.pushAll (tags.map attributeItem)).toNode =
      some (name, StringSet.ofList (attributeItems e ++ tags)) := by
  rw [← attributeItems_pushAll]
  exact valueSetOf?_toNode htag hname

theorem valueSetOf?_attributeElement (name : String) (values : StringSet) :
    valueSetOf? (attributeElement name values).toNode = some (name, values) := by
  have hname := definitionName?_attributeElement name values
  rw [valueSetOf?_toNode rfl hname, attributeItems_attributeElement, ofList_toList]

/-- Only a node of the given name is listed under it. -/
theorem fst_of_valueSetOf? {node : Node} {entry : String × StringSet}
    (h : valueSetOf? node = some entry) : nodeName? .attributes node = some entry.1 := by
  unfold valueSetOf? at h
  unfold nodeName?
  cases hnode : node.element? with
  | none => simp [hnode] at h
  | some e =>
      simp only [hnode] at h ⊢
      by_cases htag : e.name = SectionKind.attributes.definitionTag
      · rw [if_pos htag] at h ⊢
        obtain ⟨name, hname, rfl⟩ := Option.map_eq_some_iff.1 h
        exact hname
      · rw [if_neg htag] at h
        cases h

/-- Changing the first attribute of a name changes its entry in the table, which is the first of
that name too. -/
theorem filterMap_valueSetOf?_updateFirst {name : String} {values : StringSet}
    {f : Element → Element} {nodes : List Node} {e : Element}
    (hfind : nodes.find? (TransferDocument.isDefinitionNamed .attributes name) = some e.toNode)
    (hvalues : valueSetOf? (f e).toNode = some (name, values)) :
    (TransferDocument.updateFirst .attributes name f nodes).filterMap valueSetOf? =
      AttributeTable.setEntry name values (nodes.filterMap valueSetOf?) := by
  induction nodes with
  | nil => cases hfind
  | cons node nodes ih =>
      unfold TransferDocument.updateFirst
      by_cases hnamed : TransferDocument.isDefinitionNamed .attributes name node = true
      · rw [List.find?_cons_of_pos hnamed] at hfind
        cases hfind
        obtain ⟨htag, hname⟩ := TransferDocument.isDefinitionNamed_toNode.1 hnamed
        rw [if_pos hnamed, Element.element?_toNode]
        simp only [List.filterMap_cons, hvalues, valueSetOf?_toNode htag hname]
        rw [AttributeTable.setEntry, if_pos rfl]
      · rw [List.find?_cons_of_neg hnamed] at hfind
        rw [if_neg hnamed]
        cases hentry : valueSetOf? node with
        | none => simpa only [List.filterMap_cons, hentry] using ih hfind
        | some entry =>
            obtain ⟨n, v⟩ := entry
            have hne : n ≠ name := fun heq => hnamed
              (TransferDocument.isDefinitionNamed_iff.2 (heq ▸ fst_of_valueSetOf? hentry))
            simp only [List.filterMap_cons, hentry]
            rw [AttributeTable.setEntry, if_neg hne, ih hfind]

namespace Workspace

/-! ## Coherence -/

/-- **The invariant.**  The tables of a workspace say what its document says. -/
structure Coherent (w : Workspace) : Prop where
  /-- The names with a provenance are those of the definitions. -/
  provenance : ∀ kind name, (w.document.provenanceOf? kind name).isSome = true ↔
    name ∈ w.document.definitionNames kind
  /-- The names of the definitions are in use. -/
  used : ∀ kind, ∀ name ∈ w.document.definitionNames kind, name ∈ w.names.used.get kind
  /-- The value sets are those that the document lists, in the same order. -/
  valueSets : w.attributes.valueSets = (AttributeTable.ofDocument w.document).valueSets
  /-- What was resolved for a feature is an attribute. -/
  resolved : ∀ entry ∈ w.attributes.resolved, entry.2 ∈ w.document.definitionNames .attributes
  /-- The lemma macros that are held are macros. -/
  lemmaMacros : ∀ entry ∈ w.macros.lemmaMacros,
    entry.2.name ∈ w.document.definitionNames .macros
  /-- The disjoint macro that is held is a macro. -/
  disjoint : ∀ entry ∈ w.macros.disjoint, entry.2.name ∈ w.document.definitionNames .macros

theorem Coherent.ofDocument {d : TransferDocument} (h : d.AsLoaded) :
    (Workspace.ofDocument d).Coherent where
  provenance kind name := by
    show (d.provenanceOf? kind name).isSome = true ↔ _
    rw [h kind name]
    by_cases hmem : name ∈ d.definitionNames kind
    · simp [hmem, Workspace.ofDocument]
    · simp [hmem, Workspace.ofDocument]
  used _ _ hmem := NameTable.mem_used_ofDocument d |>.2 hmem
  valueSets := rfl
  resolved := by simp [Workspace.ofDocument, AttributeTable.ofDocument]
  lemmaMacros := by simp [Workspace.ofDocument]
  disjoint := by simp [Workspace.ofDocument]

variable {w : Workspace} {kind other : SectionKind} {name : String} {e : Element}

/-- A name that is not in use has no definition. -/
theorem Coherent.notMem_of_unused (hw : w.Coherent) (h : name ∉ w.names.used.get kind) :
    name ∉ w.document.definitionNames kind :=
  fun hmem => h (hw.used kind name hmem)

/-- Only definitions of known names are held, so more names do no harm. -/
theorem Coherent.of_names (hw : w.Coherent) {names : NameTable}
    (h : ∀ kind, ∀ name ∈ w.names.used.get kind, name ∈ names.used.get kind) :
    ({ w with names } : Workspace).Coherent :=
  { hw with used := fun kind name hmem => h kind name (hw.used kind name hmem) }

theorem definitions_define (htag : e.name = kind.definitionTag) (h : other ≠ kind) :
    (w.define kind name e).document.definitions other = w.document.definitions other :=
  (TransferDocument.definitions_addDefinition htag).trans (if_neg h)

theorem definitionNames_define (htag : e.name = kind.definitionTag)
    (hname : definitionName? kind e = some name) :
    (w.define kind name e).document.definitionNames other =
      if other = kind then w.document.definitionNames kind ++ [name]
      else w.document.definitionNames other :=
  TransferDocument.definitionNames_addDefinition htag hname

theorem mem_definitionNames_define (htag : e.name = kind.definitionTag)
    (hname : definitionName? kind e = some name) {n : String} :
    n ∈ (w.define kind name e).document.definitionNames other ↔
      n ∈ w.document.definitionNames other ∨ other = kind ∧ n = name := by
  rw [definitionNames_define htag hname]
  by_cases h : other = kind
  · subst h
    simp
  · simp [h]

/-- A new definition keeps everything in step but the table of attributes, which is left as it
was. -/
theorem Coherent.define_core (hw : w.Coherent) (htag : e.name = kind.definitionTag)
    (hname : definitionName? kind e = some name) {attributes : AttributeTable}
    (hresolved : attributes.resolved = w.attributes.resolved)
    (hvalues : attributes.valueSets =
      (AttributeTable.ofDocument (w.define kind name e).document).valueSets) :
    ({ w.define kind name e with attributes } : Workspace).Coherent := by
  have hmono : ∀ {other n}, n ∈ w.document.definitionNames other →
      n ∈ (w.define kind name e).document.definitionNames other :=
    fun hmem => (mem_definitionNames_define htag hname).2 (.inl hmem)
  refine ⟨?_, ?_, hvalues, ?_, ?_, ?_⟩
  · intro other n
    rw [show (w.define kind name e).document = w.document.addDefinition kind e from rfl,
      TransferDocument.provenanceOf?_addDefinition hname]
    rw [show w.document.addDefinition kind e = (w.define kind name e).document from rfl,
      mem_definitionNames_define htag hname, ← hw.provenance]
    by_cases h : other = kind ∧ n = name
    · simp [h]
    · simp [h]
  · intro other n hmem
    rcases (mem_definitionNames_define htag hname).1 hmem with hold | hnew
    · exact NameTable.mem_used_reserve.2 (.inl (hw.used _ _ hold))
    · exact NameTable.mem_used_reserve.2 (.inr hnew)
  · intro entry hentry
    exact hmono (hw.resolved entry (hresolved ▸ hentry))
  · exact fun entry hentry => hmono (hw.lemmaMacros entry hentry)
  · exact fun entry hentry => hmono (hw.disjoint entry hentry)

/-- A new definition that is no attribute. -/
theorem Coherent.define (hw : w.Coherent) (hkind : kind ≠ .attributes)
    (htag : e.name = kind.definitionTag) (hname : definitionName? kind e = some name) :
    (w.define kind name e).Coherent := by
  refine hw.define_core htag hname rfl ?_
  rw [AttributeTable.valueSets_ofDocument, Workspace.define,
    TransferDocument.childrenOf_addDefinition, if_neg hkind.symm, hw.valueSets,
    AttributeTable.valueSets_ofDocument]

/-- A new attribute, with its entry in the table. -/
def defineAttribute (w : Workspace) (name : String) (values : StringSet) : Workspace :=
  { w.define .attributes name (attributeElement name values) with
    attributes := { w.attributes with valueSets := w.attributes.valueSets ++ [(name, values)] } }

theorem Coherent.defineAttribute (hw : w.Coherent) (name : String) (values : StringSet) :
    (w.defineAttribute name values).Coherent := by
  refine hw.define_core rfl (definitionName?_attributeElement name values) rfl ?_
  rw [AttributeTable.valueSets_ofDocument, Workspace.define,
    TransferDocument.childrenOf_addDefinition, if_pos rfl, hw.valueSets,
    AttributeTable.valueSets_ofDocument, List.filterMap_append]
  simp [valueSetOf?_attributeElement]

/-- The items listed so far and the missing ones make up the union. -/
theorem ofList_append_missing (present : List String) (categories : StringSet) :
    StringSet.ofList
        (present ++ categories.toList.filter fun category => !present.contains category) =
      (StringSet.ofList present).union categories := by
  refine StringSet.ext fun x => ?_
  rw [StringSet.mem_ofList, StringSet.mem_union, StringSet.mem_ofList, List.mem_append,
    List.mem_filter, StringSet.mem_def]
  by_cases hx : x ∈ present
  · simp [hx]
  · simp [hx]

/-- What becomes of a workspace whose category attribute is defined: the first definition of the
name gets some items, and the entry of the table follows. -/
theorem ensureGramCat_eq (categories : StringSet)
    (hdefined : gramCatName ∈ w.document.definitionNames .attributes) :
    ∃ (tags : List String) (attributes : AttributeTable),
      w.ensureGramCat categories =
        { w with
          document := w.document.updateDefinition .attributes gramCatName fun e =>
            e.pushAll (tags.map attributeItem)
          attributes } ∧
      attributes.resolved = w.attributes.resolved ∧
      (w.attributes.valueSets = (AttributeTable.ofDocument w.document).valueSets →
        attributes.valueSets =
          (AttributeTable.ofDocument (w.ensureGramCat categories).document).valueSets) := by
  have hsome : (w.document.definition? .attributes gramCatName).isSome = true :=
    TransferDocument.contains_iff.2 hdefined
  obtain ⟨e, he⟩ := Option.isSome_iff_exists.1 hsome
  -- The definition that is found and the node that is updated are the same.
  have hnode := he
  rw [TransferDocument.definition?_eq] at hnode
  obtain ⟨node, hfind, hnode⟩ := Option.bind_eq_some_iff.1 hnode
  obtain rfl : node = e.toNode := by
    cases node with
    | element name attributes children =>
        cases hnode
        rfl
    | _ => cases hnode
  obtain ⟨htag, hname⟩ := TransferDocument.isDefinitionNamed_toNode.1 (List.find?_some hfind)
  unfold ensureGramCat
  simp only [he]
  refine ⟨_, _, rfl, rfl, fun hvalues => ?_⟩
  rw [AttributeTable.setValues, AttributeTable.valueSets_ofDocument,
    TransferDocument.childrenOf_updateDefinition, if_pos rfl, hvalues,
    AttributeTable.valueSets_ofDocument]
  refine (filterMap_valueSetOf?_updateFirst hfind ?_).symm
  rw [valueSetOf?_pushAll htag hname, ofList_append_missing]

theorem definitionNames_updateDefinition_pushAll (d : TransferDocument) (children : List Element) :
    (d.updateDefinition kind name fun e => e.pushAll children).definitionNames other =
      d.definitionNames other :=
  TransferDocument.definitionNames_updateDefinition (fun _ => rfl) fun _ => rfl

/-- The category attribute grows in place, and its entry in the table with it. -/
theorem Coherent.extendGramCat (hw : w.Coherent) (categories : StringSet)
    (hdefined : gramCatName ∈ w.document.definitionNames .attributes) :
    (w.ensureGramCat categories).Coherent := by
  obtain ⟨tags, attributes, heq, hresolved, hvalues⟩ := ensureGramCat_eq categories hdefined
  have hvalues := hvalues hw.valueSets
  rw [heq] at hvalues ⊢
  refine ⟨?_, ?_, hvalues, ?_, ?_, ?_⟩
  · intro kind name
    rw [TransferDocument.provenanceOf?_updateDefinition, definitionNames_updateDefinition_pushAll]
    exact hw.provenance kind name
  · intro kind name hmem
    rw [definitionNames_updateDefinition_pushAll] at hmem
    exact hw.used kind name hmem
  · intro entry hentry
    rw [definitionNames_updateDefinition_pushAll]
    exact hw.resolved entry (hresolved ▸ hentry)
  · intro entry hentry
    rw [definitionNames_updateDefinition_pushAll]
    exact hw.lemmaMacros entry hentry
  · intro entry hentry
    rw [definitionNames_updateDefinition_pushAll]
    exact hw.disjoint entry hentry

end Workspace

end TransferRules
