import TransferRules.Transfer.Usage

/-!
# Sections under edits

What the three edits of a transfer document do to each of its sections: `addDefinition` puts an
element at the end of one section, `removeDefinition` takes the definitions of one name out of a
section, and `updateDefinition` changes the first definition of a name in its place.  Everything
is stated for the children of the sections, the names of their definitions, and the provenance of
these names, so that no later proof has to open an edit.

## Main Definitions

* `nodeName?`, `namesIn` — the names of the definitions among some nodes
* `TransferDocument.childrenOf` — the children of a section, none if there is no section
* `TransferDocument.headOf` — the attributes of a section, and whether it was loaded
* `TransferDocument.frame` — a document without its sections

## Design Notes

An edit of one section leaves all others alone.  Each lemma says so itself, by an `if` on the
section that is looked at, instead of coming in two versions.
-/

namespace TransferRules.Transfer

open TransferRules.Markup

@[simp] theorem PerSection.get_set {α : Type} (t : PerSection α) (kind other : SectionKind)
    (a : α) : (t.set kind a).get other = if other = kind then a else t.get other := by
  by_cases h : other = kind
  · subst h
    rw [if_pos rfl, get_set_self]
  · rw [if_neg h, get_set_of_ne t a h]

/-! ## Names of definitions -/

/-- The name that a node has in a section; only definitions have one. -/
def nodeName? (kind : SectionKind) (node : Node) : Option String :=
  match node.element? with
  | some e => if e.name = kind.definitionTag then definitionName? kind e else none
  | none => none

/-- The names of the definitions among some nodes. -/
def namesIn (kind : SectionKind) (nodes : List Node) : List String :=
  nodes.filterMap (nodeName? kind)

variable {kind other : SectionKind} {name : String} {node : Node} {nodes : List Node}

theorem nodeName?_toNode {e : Element} (htag : e.name = kind.definitionTag) :
    nodeName? kind e.toNode = definitionName? kind e := by
  simp [nodeName?, htag]

/-- The names of the definitions of a section are those of its nodes. -/
theorem filterMap_definitionName? :
    ((nodes.filterMap Node.element?).filter fun e => e.name == kind.definitionTag).filterMap
      (definitionName? kind) = namesIn kind nodes := by
  rw [List.filterMap_filter, List.filterMap_filterMap]
  unfold namesIn nodeName?
  congr 1
  funext node
  cases node.element? with
  | none => rfl
  | some e => simp

theorem TransferDocument.isDefinitionNamed_iff :
    isDefinitionNamed kind name node = true ↔ nodeName? kind node = some name := by
  unfold isDefinitionNamed nodeName?
  cases node.element? with
  | none => simp
  | some e => by_cases htag : e.name = kind.definitionTag <;> simp [htag]

theorem TransferDocument.isDefinitionNamed_toNode {e : Element} :
    isDefinitionNamed kind name e.toNode = true ↔
      e.name = kind.definitionTag ∧ definitionName? kind e = some name := by
  simp [isDefinitionNamed]

theorem mem_namesIn : name ∈ namesIn kind nodes ↔
    ∃ node ∈ nodes, TransferDocument.isDefinitionNamed kind name node = true := by
  simp [namesIn, TransferDocument.isDefinitionNamed_iff]

/-- Taking out the definitions of a name takes out this name and no other. -/
theorem namesIn_filter : namesIn kind (nodes.filter fun node =>
      !TransferDocument.isDefinitionNamed kind name node) =
    (namesIn kind nodes).filter (· != name) := by
  unfold namesIn
  induction nodes with
  | nil => rfl
  | cons node nodes ih =>
      by_cases h : TransferDocument.isDefinitionNamed kind name node = true
      · have hname := TransferDocument.isDefinitionNamed_iff.1 h
        simpa [h, hname] using ih
      · have hname := mt TransferDocument.isDefinitionNamed_iff.2 h
        cases hnode : nodeName? kind node with
        | none => simpa [h, hnode] using ih
        | some n =>
            have hne : n ≠ name := fun heq => hname (heq ▸ hnode)
            simpa [h, hnode, hne] using ih

/-- A change of a definition that keeps its tag and its name keeps all names. -/
theorem namesIn_updateFirst {f : Element → Element} (htag : ∀ e, (f e).name = e.name)
    (hname : ∀ e, definitionName? kind (f e) = definitionName? kind e) :
    namesIn kind (TransferDocument.updateFirst kind name f nodes) = namesIn kind nodes := by
  unfold namesIn
  induction nodes with
  | nil => rfl
  | cons node nodes ih =>
      unfold TransferDocument.updateFirst
      split
      · cases he : node.element? with
        | none => rfl
        | some e =>
            have hsame : nodeName? kind (f e).toNode = nodeName? kind node := by
              simp [nodeName?, he, htag, hname]
            simp only [List.filterMap_cons, hsame]
      · simp only [List.filterMap_cons, ih]

/-- Taking out one name and then others takes out all of them. -/
theorem filter_bne_filter (name : String) (names others : List String) :
    (names.filter (· != name)).filter (fun n => !others.contains n) =
      names.filter fun n => !(name :: others).contains n := by
  rw [List.filter_filter]
  congr 1
  funext n
  rw [List.contains_cons, Bool.not_or, Bool.and_comm]
  rfl

/-! ## Provenance of names -/

namespace Section

variable {s : Section} {p : Provenance} {n : String}

theorem provenanceOf?_forget :
    (s.forget name).provenanceOf? n = if n = name then none else s.provenanceOf? n := by
  unfold forget provenanceOf?
  rw [List.find?_filter]
  by_cases h : n = name
  · subst h
    simp
  · rw [if_neg h]
    congr 2
    funext pair
    by_cases hpair : pair.1 = n
    · simp [hpair, h]
    · simp [hpair]

theorem provenanceOf?_setProvenance :
    (s.setProvenance name p).provenanceOf? n =
      if n = name then some p else s.provenanceOf? n := by
  -- What was recorded for the name is forgotten first, and the new pair comes last.
  have hforget : (s.forget name).provenanceOf? n =
      if n = name then none else s.provenanceOf? n := provenanceOf?_forget
  unfold forget provenanceOf? at hforget
  unfold setProvenance provenanceOf?
  rw [List.find?_append, Option.map_or, hforget]
  by_cases h : n = name
  · subst h
    simp
  · have hne : (name == n) = false := by simpa using fun heq => h heq.symm
    simp [h, hne]

theorem provenanceOf?_markGenerated :
    (s.markGenerated name).provenanceOf? n =
      if n = name then some ((s.provenanceOf? name).getD .generated) else s.provenanceOf? n := by
  unfold markGenerated
  split
  · next hsome =>
    obtain ⟨p, hp⟩ := Option.isSome_iff_exists.1 hsome
    by_cases h : n = name
    · subst h
      rw [if_pos rfl, hp]
      rfl
    · rw [if_neg h]
  · next hnone =>
    rw [provenanceOf?_setProvenance, Option.not_isSome_iff_eq_none.1 hnone]
    rfl

@[simp] theorem attributes_markGenerated : (s.markGenerated name).attributes = s.attributes := by
  unfold markGenerated
  split <;> rfl

@[simp] theorem children_markGenerated : (s.markGenerated name).children = s.children := by
  unfold markGenerated
  split <;> rfl

@[simp] theorem provenance_markGenerated : (s.markGenerated name).provenance = s.provenance := by
  unfold markGenerated
  split <;> rfl

end Section

/-! ## Documents -/

namespace TransferDocument

variable (d : TransferDocument)

/-- The document without its sections. -/
def frame : TransferDocument := { d with sections := .const none }

/-- The children of a section. -/
def childrenOf (kind : SectionKind) : List Node :=
  ((d.sectionOf? kind).map Section.children).getD []

/-- The attributes of a section, and whether it was loaded. -/
def headOf (kind : SectionKind) : Option (List (String × String) × Provenance) :=
  (d.sectionOf? kind).map fun s => (s.attributes, s.provenance)

variable {d}

@[simp] theorem sectionOf?_setSection (kind other : SectionKind) (s : Section) :
    (d.setSection kind s).sectionOf? other =
      if other = kind then some s else d.sectionOf? other :=
  PerSection.get_set _ _ _ _

theorem children_sectionOrFresh (kind : SectionKind) :
    (d.sectionOrFresh kind).children = d.childrenOf kind := by
  unfold sectionOrFresh childrenOf
  cases d.sectionOf? kind <;> rfl

theorem provenanceOf?_sectionOrFresh (kind : SectionKind) (n : String) :
    (d.sectionOrFresh kind).provenanceOf? n = d.provenanceOf? kind n := by
  unfold sectionOrFresh provenanceOf?
  cases d.sectionOf? kind <;> rfl

theorem definitions_eq (kind : SectionKind) : d.definitions kind =
    ((d.childrenOf kind).filterMap Node.element?).filter fun e => e.name == kind.definitionTag := by
  unfold definitions childrenOf
  cases d.sectionOf? kind <;> rfl

theorem definitionNames_eq (kind : SectionKind) :
    d.definitionNames kind = namesIn kind (d.childrenOf kind) := by
  rw [definitionNames, definitions_eq, filterMap_definitionName?]

theorem mem_definitionNames : name ∈ d.definitionNames kind ↔
    ∃ e ∈ d.definitions kind, definitionName? kind e = some name := by
  simp [definitionNames]

/-- The first definition of a name is the first node that is such a definition. -/
theorem definition?_eq (kind : SectionKind) (name : String) : d.definition? kind name =
    ((d.childrenOf kind).find? (isDefinitionNamed kind name)).bind Node.element? := by
  rw [definition?, definitions_eq, List.find?_filter]
  generalize d.childrenOf kind = nodes
  -- Nodes that are no elements count for neither search.
  induction nodes with
  | nil => rfl
  | cons node nodes ih =>
      rw [List.filterMap_cons]
      cases he : node.element? with
      | none =>
          rw [List.find?_cons_of_neg (by simp [isDefinitionNamed, he])]
          exact ih
      | some e =>
          by_cases hnamed : isDefinitionNamed kind name node = true
          · rw [List.find?_cons_of_pos hnamed, List.find?_cons_of_pos]
            · exact he.symm
            · simpa [isDefinitionNamed, he] using hnamed
          · rw [List.find?_cons_of_neg hnamed, List.find?_cons_of_neg]
            · exact ih
            · simpa [isDefinitionNamed, he] using hnamed

theorem contains_iff : d.contains kind name = true ↔ name ∈ d.definitionNames kind := by
  rw [mem_definitionNames]
  simp [contains, definition?]

theorem countNamed_eq : d.countNamed kind name = (d.definitionNames kind).count name := by
  unfold countNamed definitionNames
  rw [List.count_filterMap]

/-! ### A section that is replaced -/

theorem childrenOf_setSection (s : Section) : (d.setSection kind s).childrenOf other =
    if other = kind then s.children else d.childrenOf other := by
  unfold childrenOf
  rw [sectionOf?_setSection]
  split <;> rfl

theorem headOf_setSection (s : Section) : (d.setSection kind s).headOf other =
    if other = kind then some (s.attributes, s.provenance) else d.headOf other := by
  unfold headOf
  rw [sectionOf?_setSection]
  split <;> rfl

theorem provenanceOf?_setSection (s : Section) (n : String) :
    (d.setSection kind s).provenanceOf? other n =
      if other = kind then s.provenanceOf? n else d.provenanceOf? other n := by
  unfold provenanceOf?
  rw [sectionOf?_setSection]
  split <;> rfl

/-! ### A definition is added -/

variable {e : Element}

@[simp] theorem frame_addDefinition : (d.addDefinition kind e).frame = d.frame := rfl

theorem childrenOf_addDefinition : (d.addDefinition kind e).childrenOf other =
    if other = kind then d.childrenOf kind ++ [e.toNode] else d.childrenOf other := by
  unfold addDefinition
  rw [childrenOf_setSection]
  congr 1
  rw [← children_sectionOrFresh]
  cases definitionName? kind e <;> simp

theorem headOf_addDefinition : (d.addDefinition kind e).headOf other =
    if other = kind then some ((d.headOf kind).getD ([], .generated)) else d.headOf other := by
  have hhead : (d.headOf kind).getD ([], .generated) =
      ((d.sectionOrFresh kind).attributes, (d.sectionOrFresh kind).provenance) := by
    unfold headOf sectionOrFresh
    cases d.sectionOf? kind <;> rfl
  unfold addDefinition
  rw [headOf_setSection, hhead]
  cases definitionName? kind e <;> simp

theorem definitionNames_addDefinition (htag : e.name = kind.definitionTag)
    (hname : definitionName? kind e = some name) :
    (d.addDefinition kind e).definitionNames other =
      if other = kind then d.definitionNames kind ++ [name] else d.definitionNames other := by
  have hnode : nodeName? kind e.toNode = some name := (nodeName?_toNode htag).trans hname
  simp only [definitionNames_eq, childrenOf_addDefinition]
  by_cases h : other = kind
  · subst h
    simp [namesIn, hnode]
  · simp [h]

/-- The new definition comes last. -/
theorem definitions_addDefinition (htag : e.name = kind.definitionTag) :
    (d.addDefinition kind e).definitions other =
      if other = kind then d.definitions kind ++ [e] else d.definitions other := by
  simp only [definitions_eq, childrenOf_addDefinition]
  by_cases h : other = kind
  · subst h
    simp [htag]
  · simp [h]

/-- The name of the new definition is generated, unless it has a provenance already. -/
theorem provenanceOf?_addDefinition (hname : definitionName? kind e = some name) (n : String) :
    (d.addDefinition kind e).provenanceOf? other n =
      if other = kind ∧ n = name then some ((d.provenanceOf? kind name).getD .generated)
      else d.provenanceOf? other n := by
  unfold addDefinition
  rw [provenanceOf?_setSection, hname]
  by_cases h : other = kind
  · subst h
    have hmark : ((d.sectionOrFresh other).markGenerated name).provenanceOf? n =
        if n = name then some ((d.provenanceOf? other name).getD .generated)
        else d.provenanceOf? other n := by
      rw [Section.provenanceOf?_markGenerated, provenanceOf?_sectionOrFresh,
        provenanceOf?_sectionOrFresh]
    simp only [if_true, true_and]
    exact hmark
  · simp [h]

/-! ### The definitions of a name are removed -/

@[simp] theorem frame_removeDefinition : (d.removeDefinition kind name).frame = d.frame := by
  unfold removeDefinition
  split
  · rfl
  · split <;> rfl

theorem childrenOf_removeDefinition : (d.removeDefinition kind name).childrenOf other =
    if other = kind then (d.childrenOf kind).filter fun node => !isDefinitionNamed kind name node
    else d.childrenOf other := by
  unfold removeDefinition
  cases hs : d.sectionOf? kind with
  | none =>
      by_cases h : other = kind
      · subst h
        simp [childrenOf, hs]
      · simp [h]
  | some s =>
      have hchildren : d.childrenOf kind = s.children := by simp [childrenOf, hs]
      dsimp only
      split
      · rw [childrenOf_setSection, hchildren]
      · next hany =>
        by_cases h : other = kind
        · subst h
          rw [if_pos rfl, hchildren, List.filter_eq_self.2]
          intro node hnode
          simpa using fun hnamed => hany (List.any_eq_true.2 ⟨node, hnode, hnamed⟩)
        · rw [if_neg h]

@[simp] theorem headOf_removeDefinition :
    (d.removeDefinition kind name).headOf other = d.headOf other := by
  unfold removeDefinition
  cases hs : d.sectionOf? kind with
  | none => rfl
  | some s =>
      dsimp only
      split
      · rw [headOf_setSection]
        by_cases h : other = kind
        · subst h
          simp [headOf, hs, Section.forget]
        · rw [if_neg h]
      · rfl

theorem definitionNames_removeDefinition : (d.removeDefinition kind name).definitionNames other =
    if other = kind then (d.definitionNames kind).filter (· != name)
    else d.definitionNames other := by
  simp only [definitionNames_eq, childrenOf_removeDefinition]
  split
  · next h =>
    subst h
    exact namesIn_filter
  · rfl

/-- The name loses its provenance, if there was a definition to be removed. -/
theorem provenanceOf?_removeDefinition (n : String) :
    (d.removeDefinition kind name).provenanceOf? other n =
      if other = kind ∧ n = name ∧ name ∈ d.definitionNames kind then none
      else d.provenanceOf? other n := by
  unfold removeDefinition
  cases hs : d.sectionOf? kind with
  | none =>
      have hnames : d.definitionNames kind = [] := by simp [definitionNames, definitions, hs]
      simp [hnames]
  | some s =>
      have hmem : name ∈ d.definitionNames kind ↔
          s.children.any (isDefinitionNamed kind name) = true := by
        rw [definitionNames_eq, mem_namesIn, List.any_eq_true]
        simp [childrenOf, hs]
      dsimp only
      split
      · next hany =>
        rw [provenanceOf?_setSection]
        by_cases h : other = kind
        · subst h
          rw [if_pos rfl]
          have hforget : (s.forget name).provenanceOf? n =
              if n = name then none else s.provenanceOf? n := Section.provenanceOf?_forget
          simpa [hmem.2 hany, provenanceOf?, hs, Section.provenanceOf?] using hforget
        · simp [h]
      · next hany =>
        rw [if_neg fun h => hany (hmem.1 h.2.2)]

/-! ### The definitions of several names are removed -/

variable {names : List String}

@[simp] theorem frame_removeAll : (d.removeAll kind names).frame = d.frame := by
  unfold removeAll
  induction names generalizing d with
  | nil => rfl
  | cons name names ih => rw [List.foldl_cons, ih, frame_removeDefinition]

@[simp] theorem headOf_removeAll : (d.removeAll kind names).headOf other = d.headOf other := by
  unfold removeAll
  induction names generalizing d with
  | nil => rfl
  | cons name names ih => rw [List.foldl_cons, ih, headOf_removeDefinition]

theorem childrenOf_removeAll : (d.removeAll kind names).childrenOf other =
    if other = kind then
      (d.childrenOf kind).filter fun node => !names.any fun n => isDefinitionNamed kind n node
    else d.childrenOf other := by
  unfold removeAll
  induction names generalizing d with
  | nil =>
      split
      · next h =>
        subst h
        exact (List.filter_eq_self.2 fun _ _ => rfl).symm
      · rfl
  | cons name names ih =>
      rw [List.foldl_cons, ih, childrenOf_removeDefinition, if_pos rfl,
        childrenOf_removeDefinition, List.filter_filter]
      by_cases h : other = kind
      · rw [if_pos h, if_pos h]
        congr 1
        funext node
        rw [List.any_cons, Bool.not_or, Bool.and_comm]
      · rw [if_neg h, if_neg h, if_neg h]

theorem definitionNames_removeAll : (d.removeAll kind names).definitionNames other =
    if other = kind then (d.definitionNames kind).filter fun n => !names.contains n
    else d.definitionNames other := by
  unfold removeAll
  induction names generalizing d with
  | nil =>
      split
      · next h =>
        subst h
        exact (List.filter_eq_self.2 fun _ _ => rfl).symm
      · rfl
  | cons name names ih =>
      rw [List.foldl_cons, ih, definitionNames_removeDefinition, if_pos rfl,
        definitionNames_removeDefinition, filter_bne_filter]
      by_cases h : other = kind
      · rw [if_pos h, if_pos h]
      · rw [if_neg h, if_neg h, if_neg h]

/-- The definitions that stay are those whose name is not removed, and those without a name. -/
theorem mem_definitions_removeAll : e ∈ (d.removeAll kind names).definitions other ↔
    e ∈ d.definitions other ∧
      (other = kind → ∀ n ∈ names, definitionName? kind e ≠ some n) := by
  simp only [definitions_eq, childrenOf_removeAll, List.mem_filter]
  by_cases h : other = kind
  · subst h
    simp only [if_true, List.mem_filterMap, List.mem_filter, true_imp_iff]
    constructor
    · rintro ⟨⟨node, ⟨hnode, hkept⟩, helement⟩, htag⟩
      refine ⟨⟨⟨node, hnode, helement⟩, htag⟩, fun n hn hname => ?_⟩
      have hnamed : isDefinitionNamed other n node = true := by
        simp only [isDefinitionNamed, helement, htag, hname]
        simp
      simp only [Bool.not_eq_true', List.any_eq_false] at hkept
      exact hkept n hn hnamed
    · rintro ⟨⟨⟨node, hnode, helement⟩, htag⟩, hkept⟩
      refine ⟨⟨node, ⟨hnode, ?_⟩, helement⟩, htag⟩
      simp only [Bool.not_eq_true', List.any_eq_false]
      intro n hn hnamed
      simp only [isDefinitionNamed, helement, Bool.and_eq_true, beq_iff_eq] at hnamed
      exact hkept n hn hnamed.2
  · simp [h]

theorem provenanceOf?_removeAll (n : String) : (d.removeAll kind names).provenanceOf? other n =
    if other = kind ∧ n ∈ names ∧ n ∈ d.definitionNames kind then none
    else d.provenanceOf? other n := by
  unfold removeAll
  induction names generalizing d with
  | nil => simp
  | cons name names ih =>
      rw [List.foldl_cons, ih, provenanceOf?_removeDefinition, definitionNames_removeDefinition,
        if_pos rfl]
      by_cases h : other = kind
      · subst h
        by_cases hname : n = name
        · subst hname
          simp
        · simp [hname]
      · simp [h]

/-! ### A definition is changed in its place -/

variable {f : Element → Element}

@[simp] theorem frame_updateDefinition : (d.updateDefinition kind name f).frame = d.frame := by
  unfold updateDefinition
  split <;> rfl

theorem childrenOf_updateDefinition : (d.updateDefinition kind name f).childrenOf other =
    if other = kind then updateFirst kind name f (d.childrenOf kind) else d.childrenOf other := by
  unfold updateDefinition
  cases hs : d.sectionOf? kind with
  | none =>
      by_cases h : other = kind
      · subst h
        simp [childrenOf, hs, updateFirst]
      · simp [h]
  | some s =>
      dsimp only
      rw [childrenOf_setSection]
      simp [childrenOf, hs]

@[simp] theorem headOf_updateDefinition :
    (d.updateDefinition kind name f).headOf other = d.headOf other := by
  unfold updateDefinition
  cases hs : d.sectionOf? kind with
  | none => rfl
  | some s =>
      dsimp only
      rw [headOf_setSection]
      by_cases h : other = kind
      · subst h
        simp [headOf, hs]
      · rw [if_neg h]

@[simp] theorem provenanceOf?_updateDefinition (n : String) :
    (d.updateDefinition kind name f).provenanceOf? other n = d.provenanceOf? other n := by
  unfold updateDefinition
  cases hs : d.sectionOf? kind with
  | none => rfl
  | some s =>
      dsimp only
      rw [provenanceOf?_setSection]
      by_cases h : other = kind
      · subst h
        simp [provenanceOf?, hs, Section.provenanceOf?]
      · rw [if_neg h]

theorem definitionNames_updateDefinition (htag : ∀ e, (f e).name = e.name)
    (hname : ∀ e, definitionName? kind (f e) = definitionName? kind e) :
    (d.updateDefinition kind name f).definitionNames other = d.definitionNames other := by
  simp only [definitionNames_eq, childrenOf_updateDefinition]
  split
  · next h =>
    subst h
    exact namesIn_updateFirst htag hname
  · rfl

theorem definitions_updateDefinition_of_ne (h : other ≠ kind) :
    (d.updateDefinition kind name f).definitions other = d.definitions other := by
  rw [definitions_eq, definitions_eq, childrenOf_updateDefinition, if_neg h]

/-- A definition that is changed in its place stands between the same definitions. -/
theorem definitions_updateDefinition (htag : ∀ e, (f e).name = e.name)
    (hdefined : name ∈ d.definitionNames kind) :
    ∃ before e after, d.definitions kind = before ++ e :: after ∧
      (d.updateDefinition kind name f).definitions kind = before ++ f e :: after := by
  rw [definitionNames_eq, mem_namesIn] at hdefined
  rw [definitions_eq, definitions_eq, childrenOf_updateDefinition, if_pos rfl]
  generalize d.childrenOf kind = nodes at hdefined ⊢
  induction nodes with
  | nil =>
      obtain ⟨node, hnode, -⟩ := hdefined
      cases hnode
  | cons node nodes ih =>
      by_cases hnode : isDefinitionNamed kind name node = true
      · rw [updateFirst, if_pos hnode]
        cases node with
        | element tag attributes children =>
            have hname : tag = kind.definitionTag := by
              simp only [isDefinitionNamed, Node.element?, Bool.and_eq_true, beq_iff_eq] at hnode
              exact hnode.1
            have hkept : (f ⟨tag, attributes, children⟩).name = kind.definitionTag :=
              (htag _).trans hname
            exact ⟨[], ⟨tag, attributes, children⟩, _,
              List.filter_cons_of_pos (l := nodes.filterMap Node.element?) (beq_iff_eq.2 hname),
              List.filter_cons_of_pos (l := nodes.filterMap Node.element?) (beq_iff_eq.2 hkept)⟩
        | _ => simp [isDefinitionNamed, Node.element?] at hnode
      · obtain ⟨named, hnamed, hmatches⟩ := hdefined
        have hothers : ∃ node ∈ nodes, isDefinitionNamed kind name node = true := by
          rcases List.mem_cons.1 hnamed with rfl | hnamed
          · exact absurd hmatches hnode
          · exact ⟨named, hnamed, hmatches⟩
        obtain ⟨before, e, after, hbefore, hafter⟩ := ih hothers
        rw [updateFirst, if_neg hnode]
        cases helement : node.element? with
        | none =>
            rw [List.filterMap_cons_none helement, List.filterMap_cons_none helement]
            exact ⟨before, e, after, hbefore, hafter⟩
        | some first =>
            rw [List.filterMap_cons_some helement, List.filterMap_cons_some helement,
              List.filter_cons, List.filter_cons, hbefore, hafter]
            split
            · exact ⟨first :: before, e, after, rfl, rfl⟩
            · exact ⟨before, e, after, rfl, rfl⟩

end TransferDocument

end TransferRules.Transfer
