import TransferRules.Proofs.Action.Plain
import TransferRules.Proofs.Transfer.Loading

/-!
# What a file holds is loaded again

A transfer document that holds plain elements only, in its sections and around them nothing, is
read back from its text with the same definitions.  A section that is not written holds none.

## Main Definitions

* `TransferDocument.Plain` — documents that hold plain elements only

## Main Statements

* `Plain.addDefinition`, `Plain.removeAll`, `Plain.updateDefinition` — edits keep a document plain
* `childrenOf_ofMarkup` — how the sections of a loaded document arise
* `Plain.parse_write`, `Plain.definitions_ofMarkup` — what is written is read back, and has the
  definitions that it had
-/

namespace TransferRules.Transfer

open TransferRules.Markup

/-- Nodes that are plain elements. -/
def PlainNodes (nodes : List Node) : Prop :=
  ∀ node ∈ nodes, ∃ e : Element, e.Plain ∧ node = e.toNode

/-- Plain nodes make up a plain element. -/
theorem PlainNodes.plain {name : String} {attributes : List (String × String)} {nodes : List Node}
    (h : PlainNodes nodes) (hname : isName name = true) (hkeys : PlainKeys attributes) :
    (⟨name, attributes, nodes⟩ : Element).Plain := by
  obtain ⟨es, hes, rfl⟩ : ∃ es : List Element,
      (∀ e ∈ es, e.Plain) ∧ nodes = es.map Element.toNode := by
    induction nodes with
    | nil => exact ⟨[], nofun, rfl⟩
    | cons node nodes ih =>
        obtain ⟨es, hes, rfl⟩ := ih fun node hnode => h node (List.mem_cons_of_mem _ hnode)
        obtain ⟨e, he, rfl⟩ := h node List.mem_cons_self
        exact ⟨e :: es, List.forall_mem_cons.2 ⟨he, hes⟩, rfl⟩
  exact .mk hname hkeys hes

namespace TransferDocument

/-- A frame with nothing in it but a document type that can be read back. -/
structure PlainFrame (frame : TransferDocument) : Prop where
  doctype : ∀ body ∈ frame.doctype, PlainDoctype body
  prolog : frame.prolog = []
  epilog : frame.epilog = []
  rootAttributes : frame.rootAttributes = []
  extras : frame.extras = []

/-- Documents that hold plain elements only. -/
structure Plain (d : TransferDocument) : Prop where
  frame : PlainFrame d.frame
  heads : ∀ kind head, d.headOf kind = some head → head.1 = []
  nodes : ∀ kind, PlainNodes (d.childrenOf kind)

variable {d d' : TransferDocument} {kind : SectionKind}

/-- A document without sections is plain. -/
theorem Plain.of_blank {doctype : Option String} (h : ∀ body ∈ doctype, PlainDoctype body) :
    ({ TransferDocument.blank with doctype } : TransferDocument).Plain where
  frame := ⟨h, rfl, rfl, rfl, rfl⟩
  heads kind head hhead := by cases kind <;> cases hhead
  nodes kind node hnode := by cases kind <;> cases hnode

/-! ## Edits -/

/-- A plain definition may be added. -/
theorem Plain.addDefinition (hd : d.Plain) {e : Element} (he : e.Plain) :
    (d.addDefinition kind e).Plain where
  frame := hd.frame
  heads other head hhead := by
    rw [headOf_addDefinition] at hhead
    split at hhead
    · cases hhead
      cases hold : d.headOf kind with
      | none => rfl
      | some head => exact hd.heads kind head hold
    · exact hd.heads other head hhead
  nodes other node hnode := by
    rw [childrenOf_addDefinition] at hnode
    split at hnode
    · rcases List.mem_append.1 hnode with hnode | hnode
      · exact hd.nodes kind node hnode
      · exact ⟨e, he, List.mem_singleton.1 hnode⟩
    · exact hd.nodes other node hnode

/-- Definitions may be removed. -/
theorem Plain.removeAll (hd : d.Plain) (names : List String) : (d.removeAll kind names).Plain where
  frame := by
    rw [frame_removeAll]
    exact hd.frame
  heads other head hhead := by
    rw [headOf_removeAll] at hhead
    exact hd.heads other head hhead
  nodes other node hnode := by
    rw [childrenOf_removeAll] at hnode
    split at hnode
    · exact hd.nodes kind node (List.mem_filter.1 hnode).1
    · exact hd.nodes other node hnode

/-- A definition may be changed, as long as it stays plain. -/
theorem Plain.updateDefinition (hd : d.Plain) {name : String} {f : Element → Element}
    (hf : ∀ e : Element, e.Plain → (f e).Plain) : (d.updateDefinition kind name f).Plain where
  frame := by
    rw [frame_updateDefinition]
    exact hd.frame
  heads other head hhead := by
    rw [headOf_updateDefinition] at hhead
    exact hd.heads other head hhead
  nodes other := by
    have hupdate : ∀ nodes : List Node, PlainNodes nodes →
        PlainNodes (updateFirst kind name f nodes) := by
      intro nodes hnodes
      induction nodes with
      | nil => exact hnodes
      | cons node nodes ih =>
          obtain ⟨⟨e, he, rfl⟩, hrest⟩ := List.forall_mem_cons.1 hnodes
          rw [updateFirst]
          split
          · exact List.forall_mem_cons.2 ⟨⟨f e, hf e he, rfl⟩, hrest⟩
          · exact List.forall_mem_cons.2 ⟨⟨e, he, rfl⟩, ih hrest⟩
    rw [childrenOf_updateDefinition]
    split
    · exact hupdate _ (hd.nodes kind)
    · exact hd.nodes other

/-! ## Writing and loading -/

/-- What a node under the root of a file adds to the section of a kind. -/
def sectionNodes (kind : SectionKind) (node : Node) : List Node :=
  match node.element? with
  | some e => if SectionKind.ofTag? e.name = some kind then e.children else []
  | none => []

theorem childrenOf_absorbNode (node : Node) :
    (d.absorbNode node).childrenOf kind = d.childrenOf kind ++ sectionNodes kind node := by
  unfold absorbNode sectionNodes
  cases hnode : node.element? with
  | none => exact (List.append_nil _).symm
  | some e =>
      dsimp only
      cases htag : SectionKind.ofTag? e.name with
      | none => exact (List.append_nil _).symm
      | some other =>
          obtain ⟨s, hchildren, -, heq⟩ := absorbSection_eq d other e
          simp only [heq, childrenOf_setSection, markLoaded, Section.children_foldl_setProvenance,
            hchildren, Option.some.injEq]
          by_cases h : other = kind
          · subst h
            rw [if_pos rfl, if_pos rfl]
          · rw [if_neg (Ne.symm h), if_neg h, List.append_nil]

/-- A section of a loaded document holds what its elements in the file hold, one after the
other. -/
theorem childrenOf_ofMarkup (document : Markup.Document) :
    (ofMarkup document).childrenOf kind = document.root.children.flatMap (sectionNodes kind) := by
  have hfold : ∀ (nodes : List Node) (d : TransferDocument),
      (nodes.foldl absorbNode d).childrenOf kind =
        d.childrenOf kind ++ nodes.flatMap (sectionNodes kind) := by
    intro nodes
    induction nodes with
    | nil => exact fun d => (List.append_nil _).symm
    | cons node nodes ih =>
        intro d
        rw [List.foldl_cons, ih, childrenOf_absorbNode, List.flatMap_cons, List.append_assoc]
  refine (hfold _ _).trans ?_
  cases kind <;> rfl

/-- Of the elements that are written, only that of a section adds to it. -/
theorem flatMap_sectionNodes {kinds : List SectionKind} (hkinds : kinds.Nodup)
    (elementOf : SectionKind → Element) (helement : ∀ other, (elementOf other).name = other.tag) :
    (kinds.map fun other => (elementOf other).toNode).flatMap (sectionNodes kind) =
      if kind ∈ kinds then (elementOf kind).children else [] := by
  have hnodes : ∀ other, sectionNodes kind (elementOf other).toNode =
      if other = kind then (elementOf kind).children else [] := by
    intro other
    simp only [sectionNodes, Element.element?_toNode, helement, SectionKind.ofTag?_tag,
      Option.some.injEq]
    split
    · next h => rw [h]
    · rfl
  induction kinds with
  | nil => rfl
  | cons other kinds ih =>
      obtain ⟨hother, hkinds⟩ := List.nodup_cons.1 hkinds
      rw [List.map_cons, List.flatMap_cons, hnodes, ih hkinds]
      by_cases h : other = kind
      · subst h
        simp [hother]
      · simp [h, Ne.symm h]

/-- The element of a section as it is written. -/
theorem sectionElement_eq (kind : SectionKind) :
    (d.sectionElement? kind).getD (Element.named kind.tag) =
      ⟨kind.tag, ((d.headOf kind).map Prod.fst).getD [], d.childrenOf kind⟩ := by
  unfold sectionElement? headOf childrenOf
  cases d.sectionOf? kind <;> rfl

/-- A section that is not written holds no definition. -/
theorem definitions_of_not_retained (h : d.isRetained kind = false) : d.definitions kind = [] := by
  unfold isRetained at h
  unfold definitions
  cases hs : d.sectionOf? kind with
  | none => rfl
  | some s =>
      rw [hs] at h
      have hempty : (s.toElement kind).hasNoElements = true := by
        cases hprovenance : s.provenance <;> simp_all
      rw [Element.hasNoElements, List.isEmpty_iff] at hempty
      simp [Section.definitions, Element.childrenNamed, hempty]

/-- What is written is a document that can be read back. -/
theorem Plain.toMarkup (hd : d.Plain) : d.toMarkup.Plain where
  doctype := hd.frame.doctype
  prolog := hd.frame.prolog
  epilog := hd.frame.epilog
  root := by
    have hroot : PlainNodes d.toElement.children := by
      intro node hnode
      have hextras : d.extras = [] := hd.frame.extras
      rw [toElement, hextras, List.append_nil] at hnode
      obtain ⟨kind, -, rfl⟩ := List.mem_map.1 hnode
      refine ⟨_, ?_, rfl⟩
      have hattributes : ((d.headOf kind).map Prod.fst).getD [] = [] := by
        cases hhead : d.headOf kind with
        | none => rfl
        | some head => exact hd.heads kind head hhead
      rw [sectionElement_eq, hattributes]
      exact (hd.nodes kind).plain (by cases kind <;> rfl) plainKeys_nil
    have hattributes : d.toElement.attributes = [] := hd.frame.rootAttributes
    have heq : d.toElement = ⟨rootTag, [], d.toElement.children⟩ := by
      rw [← hattributes]
      rfl
    show d.toElement.Plain
    rw [heq]
    exact hroot.plain rfl plainKeys_nil

/-- **What is written is read back.** -/
theorem Plain.parse_write (hd : d.Plain) (indent : Nat) :
    parse (d.write indent) = .ok (ofMarkup d.toMarkup) := by
  have hroot : d.toMarkup.root.name = rootTag := rfl
  rw [parse, parseRooted, write, Markup.Document.parse_write hd.toMarkup]
  simp only [if_pos hroot]
  rfl

/-- **Sorting what is written into sections** gives back every section that is written. -/
theorem Plain.childrenOf_ofMarkup (hd : d.Plain) (kind : SectionKind) :
    (ofMarkup d.toMarkup).childrenOf kind =
      if kind ∈ d.retainedSections then d.childrenOf kind else [] := by
  have hextras : d.extras = [] := hd.frame.extras
  have hnodup : d.retainedSections.Nodup := List.Pairwise.filter _ (by decide)
  rw [TransferDocument.childrenOf_ofMarkup]
  show d.toElement.children.flatMap (sectionNodes kind) = _
  rw [toElement, hextras, List.append_nil,
    flatMap_sectionNodes hnodup (fun kind => (d.sectionElement? kind).getD (.named kind.tag))
      fun other => by rw [sectionElement_eq], sectionElement_eq]

/-- So every definition is given back. -/
theorem Plain.definitions_ofMarkup (hd : d.Plain) (kind : SectionKind) :
    (ofMarkup d.toMarkup).definitions kind = d.definitions kind := by
  by_cases hretained : d.isRetained kind = true
  · have hmem : kind ∈ d.retainedSections :=
      List.mem_filter.2 ⟨SectionKind.mem_all kind, hretained⟩
    rw [definitions_eq, definitions_eq, hd.childrenOf_ofMarkup, if_pos hmem]
  · have hmem : kind ∉ d.retainedSections := fun hmem => hretained (List.mem_filter.1 hmem).2
    rw [definitions_of_not_retained (Bool.eq_false_iff.2 hretained), definitions_eq,
      hd.childrenOf_ofMarkup, if_neg hmem]
    rfl

/-- The rules are written even if there are none. -/
theorem Plain.rules_ofMarkup (hd : d.Plain) :
    (ofMarkup d.toMarkup).childrenOf .rules = d.childrenOf .rules :=
  (hd.childrenOf_ofMarkup .rules).trans
    (if_pos (List.mem_filter.2 ⟨SectionKind.mem_all .rules, rfl⟩))

end TransferDocument

end TransferRules.Transfer
