import TransferRules.Proofs.Transfer.Writing

/-!
# The normal form of a transfer file

A file may hold its sections in any order, several of one kind, and other nodes between them.
Loaded and written, it is in normal form: the sections come first, one of a kind and in their fixed
order, and everything else follows.  A section holds what the sections of its kind held, so no node
is lost, and a file in normal form is written as it is.

## Main Definitions

* `sectionsOf`, `isSection` — the sections among some nodes
* `mergedSection` — all sections of a kind in one
* `normalForm` — the normal form of a root
* `IsNormalFormOf` — what the normal form of a root is like

## Main Statements

* `TransferDocument.toElement_ofMarkup` — loading and writing makes the normal form
* `normalForm_normalForm` — the normal form is its own normal form
* `TransferDocument.isNormalFormOf_of_load` — what loading and writing does to a file

## Design Notes

Loading keeps three things apart while it goes through the nodes: the children of every section, its
attributes with its provenance, and what stands outside the sections.  Each of them is computed
from the nodes by an induction of its own; that of the children is `childrenOf_ofMarkup`.
-/

namespace TransferRules.Transfer

open TransferRules.Markup

/-- The elements among some nodes that are sections of a kind, in order. -/
def sectionsOf (kind : SectionKind) (nodes : List Node) : List Element :=
  (nodes.filterMap Node.element?).filter fun e => e.name == kind.tag

/-- Whether a node is a section of some kind. -/
def isSection (node : Node) : Bool :=
  (node.element?.bind fun e => SectionKind.ofTag? e.name).isSome

/-- All sections of a kind in one: it has the attributes of the first, and the children of all of
them, one after the other. -/
def mergedSection (kind : SectionKind) (nodes : List Node) : Element where
  name := kind.tag
  attributes := ((sectionsOf kind nodes).head?.map Element.attributes).getD []
  children := (sectionsOf kind nodes).flatMap Element.children

/-- The kinds of the sections that the normal form has, in order: those that are needed, and those
that are there. -/
def normalKinds (nodes : List Node) : List SectionKind :=
  SectionKind.all.filter fun kind => kind.isMandatory || !(sectionsOf kind nodes).isEmpty

/-- The normal form of a root. -/
def normalForm (root : Element) : Element where
  name := rootTag
  attributes := root.attributes
  children :=
    (normalKinds root.children).map (fun kind => (mergedSection kind root.children).toNode) ++
      root.children.filter fun node => !isSection node

/-- What the normal form of a root is like: the sections come first, one of a kind and in their
fixed order, namely those that are needed and those of which the root has some; each is made of all
sections of its kind; and everything else follows in its order. -/
structure IsNormalFormOf (root written : Element) : Prop where
  name : written.name = rootTag
  attributes : written.attributes = root.attributes
  children : ∃ kinds : List SectionKind,
    written.children = kinds.map (fun kind => (mergedSection kind root.children).toNode) ++
      root.children.filter (fun node => !isSection node) ∧
    kinds.Sublist SectionKind.all ∧
    ∀ kind, kind ∈ kinds ↔ kind.isMandatory = true ∨
      ∃ e : Element, e.name = kind.tag ∧ e.toNode ∈ root.children

variable {kind : SectionKind} {nodes : List Node} {node : Node} {e : Element}

/-! ## Sections among nodes -/

theorem SectionKind.ofTag?_eq_some_iff {tag : String} :
    SectionKind.ofTag? tag = some kind ↔ tag = kind.tag := by
  constructor
  · intro h
    have hfound := List.find?_some h
    exact (beq_iff_eq.1 hfound).symm
  · rintro rfl
    exact SectionKind.ofTag?_tag kind

theorem eq_toNode_of_element? (h : node.element? = some e) : node = e.toNode := by
  cases node <;> cases h
  rfl

theorem mem_sectionsOf_iff :
    e ∈ sectionsOf kind nodes ↔ e.name = kind.tag ∧ e.toNode ∈ nodes := by
  simp only [sectionsOf, List.mem_filter, List.mem_filterMap, beq_iff_eq]
  constructor
  · rintro ⟨⟨node, hnode, helement⟩, hname⟩
    rw [eq_toNode_of_element? helement] at hnode
    exact ⟨hname, hnode⟩
  · rintro ⟨hname, hnode⟩
    exact ⟨⟨e.toNode, hnode, rfl⟩, hname⟩

theorem sectionsOf_append (kind : SectionKind) (nodes more : List Node) :
    sectionsOf kind (nodes ++ more) = sectionsOf kind nodes ++ sectionsOf kind more := by
  rw [sectionsOf, List.filterMap_append, List.filter_append]
  rfl

theorem sectionsOf_cons (kind : SectionKind) (node : Node) (nodes : List Node) :
    sectionsOf kind (node :: nodes) = sectionsOf kind [node] ++ sectionsOf kind nodes :=
  sectionsOf_append kind [node] nodes

/-- Nodes that are no sections hold none of any kind. -/
theorem sectionsOf_of_not_isSection (h : ∀ node ∈ nodes, isSection node = false) :
    sectionsOf kind nodes = [] := by
  rw [List.eq_nil_iff_forall_not_mem]
  intro e he
  obtain ⟨hname, hnode⟩ := mem_sectionsOf_iff.1 he
  have hnot := h e.toNode hnode
  simp [isSection, hname, SectionKind.ofTag?_tag] at hnot

/-- What the nodes add to a section is what the sections of its kind hold. -/
theorem flatMap_sectionNodes_eq (kind : SectionKind) (nodes : List Node) :
    nodes.flatMap (TransferDocument.sectionNodes kind) =
      (sectionsOf kind nodes).flatMap Element.children := by
  induction nodes with
  | nil => rfl
  | cons node nodes ih =>
      rw [List.flatMap_cons, ih, sectionsOf_cons, List.flatMap_append]
      congr 1
      unfold TransferDocument.sectionNodes sectionsOf
      cases hnode : node.element? with
      | none => simp [hnode]
      | some e =>
          by_cases hname : e.name = kind.tag
          · simp [hnode, hname, SectionKind.ofTag?_tag]
          · simp [hnode, hname, SectionKind.ofTag?_eq_some_iff]

theorem mem_normalKinds_iff : kind ∈ normalKinds nodes ↔
    kind.isMandatory = true ∨ ∃ e : Element, e.name = kind.tag ∧ e.toNode ∈ nodes := by
  simp only [normalKinds, List.mem_filter, SectionKind.mem_all, true_and, Bool.or_eq_true,
    Bool.not_eq_true', List.isEmpty_eq_false_iff_exists_mem, mem_sectionsOf_iff]

theorem isNormalFormOf_normalForm (root : Element) : IsNormalFormOf root (normalForm root) where
  name := rfl
  attributes := rfl
  children := ⟨normalKinds root.children, rfl, List.filter_sublist, fun _ => mem_normalKinds_iff⟩

/-! ## The normal form of a normal form -/

/-- Among sections of different kinds there is one of a kind at most. -/
theorem sectionsOf_map (kind : SectionKind) {kinds : List SectionKind} (hkinds : kinds.Nodup)
    (elementOf : SectionKind → Element) (helement : ∀ other, (elementOf other).name = other.tag) :
    sectionsOf kind (kinds.map fun other => (elementOf other).toNode) =
      if kind ∈ kinds then [elementOf kind] else [] := by
  have htag : ∀ other : SectionKind, other.tag = kind.tag ↔ other = kind := by
    intro other
    rw [← SectionKind.ofTag?_eq_some_iff, SectionKind.ofTag?_tag, Option.some_inj]
  induction kinds with
  | nil => rfl
  | cons other kinds ih =>
      obtain ⟨hother, hkinds⟩ := List.nodup_cons.1 hkinds
      rw [List.map_cons, sectionsOf_cons, ih hkinds]
      by_cases h : other = kind
      · subst h
        simp [sectionsOf, helement, hother]
      · simp [sectionsOf, helement, htag, h, Ne.symm h]

/-- The sections of the normal form: one for each kind that it has. -/
theorem sectionsOf_normalForm (kind : SectionKind) (root : Element) :
    sectionsOf kind (normalForm root).children =
      if kind ∈ normalKinds root.children then [mergedSection kind root.children] else [] := by
  have hrest : sectionsOf kind (root.children.filter fun node => !isSection node) = [] := by
    apply sectionsOf_of_not_isSection
    intro node hnode
    simpa using (List.mem_filter.1 hnode).2
  have hnodup : (normalKinds root.children).Nodup :=
    List.Nodup.filter _ (by decide)
  rw [normalForm, sectionsOf_append, hrest, List.append_nil]
  exact sectionsOf_map kind hnodup (fun other => mergedSection other root.children) fun _ => rfl

theorem isSection_mergedSection (kind : SectionKind) (nodes : List Node) :
    isSection (mergedSection kind nodes).toNode = true := by
  simp [isSection, mergedSection, SectionKind.ofTag?_tag]

/-- **The normal form is its own normal form.** -/
theorem normalForm_normalForm (root : Element) :
    normalForm (normalForm root) = normalForm root := by
  have hkinds : normalKinds (normalForm root).children = normalKinds root.children := by
    apply List.filter_congr
    intro kind _
    have hmem : kind ∈ normalKinds root.children ↔
        (kind.isMandatory || !(sectionsOf kind root.children).isEmpty) = true := by
      simp [normalKinds, SectionKind.mem_all]
    rw [sectionsOf_normalForm]
    by_cases h : kind ∈ normalKinds root.children
    · rw [if_pos h, hmem.1 h]
      simp
    · have hnot := Bool.eq_false_iff.2 (mt hmem.2 h)
      rw [if_neg h, hnot]
      simpa using (Bool.or_eq_false_iff.1 hnot).1
  have hmerged : ∀ kind ∈ normalKinds root.children,
      mergedSection kind (normalForm root).children = mergedSection kind root.children := by
    intro kind hkind
    rw [mergedSection, sectionsOf_normalForm, if_pos hkind]
    simp [mergedSection]
  have hrest : ((normalForm root).children.filter fun node => !isSection node) =
      root.children.filter fun node => !isSection node := by
    have hsections : ((normalKinds root.children).map fun kind =>
        (mergedSection kind root.children).toNode).filter (fun node => !isSection node) = [] := by
      rw [List.filter_eq_nil_iff]
      intro node hnode
      obtain ⟨kind, -, rfl⟩ := List.mem_map.1 hnode
      simp [isSection_mergedSection]
    rw [normalForm, List.filter_append, hsections, List.nil_append, List.filter_filter]
    simp
  have hsections : ((normalKinds (normalForm root).children).map fun kind =>
      (mergedSection kind (normalForm root).children).toNode) =
        (normalKinds root.children).map fun kind => (mergedSection kind root.children).toNode := by
    rw [hkinds]
    apply List.map_congr_left
    intro kind hkind
    rw [hmerged kind hkind]
  rw [normalForm, hsections, hrest]
  rfl

namespace TransferDocument

variable {d : TransferDocument}

/-! ## Loading -/

/-- A node of a file is a section, or it is kept beside the sections. -/
theorem absorbNode_cases (d : TransferDocument) (node : Node) :
    (isSection node = false ∧ d.absorbNode node = { d with extras := d.extras ++ [node] }) ∨
      ∃ (kind : SectionKind) (e : Element), node = e.toNode ∧ e.name = kind.tag ∧
        d.absorbNode node = d.absorbSection kind e := by
  unfold absorbNode isSection
  cases hnode : node.element? with
  | none => exact .inl ⟨rfl, rfl⟩
  | some e =>
      dsimp only [Option.bind_some]
      cases htag : SectionKind.ofTag? e.name with
      | none => exact .inl ⟨rfl, rfl⟩
      | some kind =>
          refine .inr ⟨kind, e, eq_toNode_of_element? hnode, ?_, rfl⟩
          exact SectionKind.ofTag?_eq_some_iff.1 htag

/-- The first element of a kind makes its section, and the others leave its attributes alone. -/
theorem headOf_absorbSection (d : TransferDocument) (kind other : SectionKind) (e : Element) :
    (d.absorbSection kind e).headOf other =
      if other = kind then some (((d.headOf kind).map Prod.fst).getD e.attributes, .loaded)
      else d.headOf other := by
  have hhead : ∀ (names : List String) (s : Section),
      (names.foldl (fun s name => s.setProvenance name .loaded) s).attributes = s.attributes ∧
      (names.foldl (fun s name => s.setProvenance name .loaded) s).provenance = s.provenance := by
    intro names
    induction names with
    | nil => exact fun s => ⟨rfl, rfl⟩
    | cons name names ih => exact fun s => ih (s.setProvenance name .loaded)
  unfold absorbSection
  cases hs : d.sectionOf? kind with
  | none =>
      simp only [headOf_setSection, markLoaded, hhead]
      simp [headOf, hs]
  | some s =>
      simp only [headOf_setSection, markLoaded, hhead]
      simp [headOf, hs]

theorem frame_absorbSection (d : TransferDocument) (kind : SectionKind) (e : Element) :
    (d.absorbSection kind e).frame = d.frame := by
  obtain ⟨s, -, -, heq⟩ := absorbSection_eq d kind e
  rw [heq]
  rfl

theorem headOf_absorbNode (d : TransferDocument) (kind : SectionKind) (node : Node) :
    (d.absorbNode node).headOf kind =
      match sectionsOf kind [node] with
      | [] => d.headOf kind
      | e :: _ => some (((d.headOf kind).map Prod.fst).getD e.attributes, .loaded) := by
  rcases absorbNode_cases d node with ⟨hnot, heq⟩ | ⟨other, e, rfl, hname, heq⟩
  · have hnone : sectionsOf kind [node] = [] := by
      apply sectionsOf_of_not_isSection
      simpa using hnot
    rw [heq, hnone]
    rfl
  · have hsections : sectionsOf kind [e.toNode] = if kind = other then [e] else [] := by
      have hsame : e.name = kind.tag ↔ kind = other := by
        rw [hname, ← SectionKind.ofTag?_eq_some_iff, SectionKind.ofTag?_tag, Option.some_inj,
          eq_comm]
      by_cases h : kind = other
      · simp [sectionsOf, hsame.2 h, if_pos h]
      · simp [sectionsOf, mt hsame.1 h, if_neg h]
    rw [heq, headOf_absorbSection, hsections]
    by_cases h : kind = other
    · subst h
      simp
    · simp [h]

/-- A section has the attributes of the first element of its kind, and it is known as loaded. -/
theorem headOf_ofMarkup (document : Markup.Document) (kind : SectionKind) :
    (ofMarkup document).headOf kind =
      (sectionsOf kind document.root.children).head?.map fun e => (e.attributes, .loaded) := by
  have hfold : ∀ (nodes : List Node) (d : TransferDocument),
      (∀ head, d.headOf kind = some head → head.2 = .loaded) →
      (nodes.foldl absorbNode d).headOf kind =
        (d.headOf kind).or
          ((sectionsOf kind nodes).head?.map fun e => (e.attributes, .loaded)) := by
    intro nodes
    induction nodes with
    | nil =>
        intro d _
        exact (Option.or_none).symm
    | cons node nodes ih =>
        intro d hloaded
        have hnode := headOf_absorbNode d kind node
        have hnext : ∀ head, (d.absorbNode node).headOf kind = some head → head.2 = .loaded := by
          intro head hhead
          rw [hnode] at hhead
          split at hhead
          · exact hloaded head hhead
          · cases hhead
            rfl
        rw [List.foldl_cons, ih _ hnext, hnode, sectionsOf_cons kind node nodes]
        cases hsections : sectionsOf kind [node] with
        | nil => rfl
        | cons e rest =>
            cases hold : d.headOf kind with
            | none => rfl
            | some head =>
                obtain ⟨attributes, provenance⟩ := head
                obtain rfl : provenance = .loaded := hloaded _ hold
                rfl
  refine (hfold _ _ ?_).trans ?_
  · intro head hhead
    cases kind <;> cases hhead
  · cases kind <;> rfl

/-- What is no section is kept beside the sections, and the attributes of the root are kept. -/
theorem frame_ofMarkup (document : Markup.Document) :
    (ofMarkup document).extras = document.root.children.filter (fun node => !isSection node) ∧
      (ofMarkup document).rootAttributes = document.root.attributes := by
  have hnode : ∀ (d : TransferDocument) (node : Node),
      (d.absorbNode node).extras = d.extras ++ [node].filter (fun node => !isSection node) ∧
        (d.absorbNode node).rootAttributes = d.rootAttributes := by
    intro d node
    rcases absorbNode_cases d node with ⟨hnot, heq⟩ | ⟨kind, e, rfl, hname, heq⟩
    · rw [heq]
      simp [hnot]
    · have hframe := frame_absorbSection d kind e
      have hsection : isSection e.toNode = true := by
        simp [isSection, hname, SectionKind.ofTag?_tag]
      rw [heq, List.filter_singleton, hsection]
      have hextras : (d.absorbSection kind e).frame.extras = d.frame.extras := by rw [hframe]
      have hattributes :
          (d.absorbSection kind e).frame.rootAttributes = d.frame.rootAttributes := by
        rw [hframe]
      exact ⟨hextras.trans (List.append_nil _).symm, hattributes⟩
  have hfold : ∀ (nodes : List Node) (d : TransferDocument),
      (nodes.foldl absorbNode d).extras =
          d.extras ++ nodes.filter (fun node => !isSection node) ∧
        (nodes.foldl absorbNode d).rootAttributes = d.rootAttributes := by
    intro nodes
    induction nodes with
    | nil => exact fun d => ⟨(List.append_nil _).symm, rfl⟩
    | cons node nodes ih =>
        intro d
        obtain ⟨hextras, hattributes⟩ := ih (d.absorbNode node)
        rw [List.foldl_cons, hextras, hattributes, (hnode d node).1, (hnode d node).2,
          List.append_assoc, ← List.filter_append]
        exact ⟨rfl, rfl⟩
  exact hfold document.root.children _

/-! ## Writing -/

/-- Exactly the sections of the normal form are written. -/
theorem retainedSections_ofMarkup (document : Markup.Document) :
    (ofMarkup document).retainedSections = normalKinds document.root.children := by
  apply List.filter_congr
  intro kind _
  have hhead := headOf_ofMarkup document kind
  unfold isRetained
  congr 1
  cases hs : (ofMarkup document).sectionOf? kind with
  | none =>
      rw [headOf, hs] at hhead
      cases hsections : sectionsOf kind document.root.children with
      | nil => rfl
      | cons e rest =>
          rw [hsections] at hhead
          cases hhead
  | some s =>
      rw [headOf, hs] at hhead
      cases hsections : sectionsOf kind document.root.children with
      | nil =>
          rw [hsections] at hhead
          cases hhead
      | cons e rest =>
          rw [hsections] at hhead
          have hloaded : s.provenance = .loaded := congrArg Prod.snd (Option.some_inj.1 hhead)
          simp [hloaded]

/-- **Loading and writing makes the normal form.** -/
theorem toElement_ofMarkup (document : Markup.Document) :
    (ofMarkup document).toElement = normalForm document.root := by
  have hsection : ∀ kind : SectionKind,
      ((ofMarkup document).sectionElement? kind).getD (Element.named kind.tag) =
        mergedSection kind document.root.children := by
    intro kind
    rw [sectionElement_eq, headOf_ofMarkup, childrenOf_ofMarkup, flatMap_sectionNodes_eq,
      mergedSection]
    cases (sectionsOf kind document.root.children).head? <;> rfl
  obtain ⟨hextras, hattributes⟩ := frame_ofMarkup document
  unfold toElement normalForm
  rw [retainedSections_ofMarkup, hextras, hattributes]
  simp only [hsection]

/-- **Loading and writing loses no node.**  What is written for a file has one section of a kind, in
order, with all that the sections of its kind held, and everything else behind them; and if it is
loaded again, the same is written. -/
theorem isNormalFormOf_of_load (document : Markup.Document) :
    IsNormalFormOf document.root (ofMarkup document).toElement ∧
      (ofMarkup (ofMarkup document).toMarkup).toElement = (ofMarkup document).toElement := by
  constructor
  · rw [toElement_ofMarkup]
    exact isNormalFormOf_normalForm document.root
  · rw [toElement_ofMarkup]
    show normalForm (ofMarkup document).toElement = _
    rw [toElement_ofMarkup, normalForm_normalForm]

end TransferDocument

end TransferRules.Transfer
