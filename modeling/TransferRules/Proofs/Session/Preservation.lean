import TransferRules.Proofs.Session.Runs

/-!
# What was loaded is preserved

Whatever is done after a file was loaded, the content of the file stays where it was: all that is
around the sections is untouched, and the children of every section are a prefix of what the
section holds later.  Two things may happen to such a prefix.  Rules may be missing whose names a
processed specification replaces, and the category attribute may have more items at its end.

## Main Definitions

* `Kept` — what may have become of the children that a section had when it was loaded
* `Preserved` — what the document of a later session still has of the loaded one

## Main Statements

* `Intact.edit` — an edit leaves what was loaded intact
* `Session.preserved_of_load` — so does everything that is done after a load

## Design Notes

A loaded macro or variable is never taken for a generated one.  That its name keeps its
provenance is part of the invariant, but not of what is claimed in the end: see `Intact`.
-/

namespace TransferRules

open TransferRules.Markup
open TransferRules.Transfer
open TransferRules.Transfer.TransferDocument

/-- What may have become of the children that a section had when it was loaded: the rules of some
replaced names are missing, or the first definition of the category attribute has more items at
its end.  All other sections have the children that they had. -/
def Kept (replaced : List String) (kind : SectionKind) (nodes kept : List Node) : Prop :=
  match kind with
  | .rules => ∃ gone : List String, (∀ name ∈ gone, name ∈ replaced) ∧
      kept = nodes.filter fun node => !gone.any fun name => isDefinitionNamed .rules name node
  | .attributes => kept = nodes ∨ ∃ (front : List Node) (e : Element) (back : List Node)
      (tags : List String),
      (∀ node ∈ front, isDefinitionNamed .attributes gramCatName node = false) ∧
      isDefinitionNamed .attributes gramCatName e.toNode = true ∧
      nodes = front ++ e.toNode :: back ∧
      kept = front ++ (e.pushAll (tags.map attributeItem)).toNode :: back
  | _ => kept = nodes

/-- What a document still has of the one that was loaded. -/
structure Preserved (replaced : List String) (loaded d : TransferDocument) : Prop where
  doctype : d.doctype = loaded.doctype
  prolog : d.prolog = loaded.prolog
  epilog : d.epilog = loaded.epilog
  rootAttributes : d.rootAttributes = loaded.rootAttributes
  extras : d.extras = loaded.extras
  /-- A section that was loaded is there, with the attributes it had. -/
  heads : ∀ kind head, loaded.headOf kind = some head → d.headOf kind = some head
  /-- The loaded children of a section come first, and in their order. -/
  children : ∀ kind, ∃ kept added, d.childrenOf kind = kept ++ added ∧
    Kept replaced kind (loaded.childrenOf kind) kept

/-! ## Changing the first definition of a name -/

section UpdateFirst

variable {kind : SectionKind} {name : String} {f : Element → Element}
  {nodes front back : List Node} {e : Element}

theorem updateFirst_of_split
    (hfront : ∀ node ∈ front, isDefinitionNamed kind name node = false)
    (he : isDefinitionNamed kind name e.toNode = true) :
    updateFirst kind name f (front ++ e.toNode :: back) = front ++ (f e).toNode :: back := by
  induction front with
  | nil => rw [List.nil_append, updateFirst, if_pos he, Element.element?_toNode, List.nil_append]
  | cons node front ih =>
      have hnode : ¬ isDefinitionNamed kind name node = true :=
        Bool.not_eq_true _ ▸ hfront node List.mem_cons_self
      rw [List.cons_append, updateFirst, if_neg hnode,
        ih fun other hother => hfront other (List.mem_cons_of_mem _ hother), List.cons_append]

theorem updateFirst_append_of_none {more : List Node}
    (hnodes : ∀ node ∈ nodes, isDefinitionNamed kind name node = false) :
    updateFirst kind name f (nodes ++ more) = nodes ++ updateFirst kind name f more := by
  induction nodes with
  | nil => rfl
  | cons node nodes ih =>
      have hnode : ¬ isDefinitionNamed kind name node = true :=
        Bool.not_eq_true _ ▸ hnodes node List.mem_cons_self
      rw [List.cons_append, updateFirst, if_neg hnode,
        ih fun other hother => hnodes other (List.mem_cons_of_mem _ hother), List.cons_append]

/-- Among some nodes there is no definition of a name, or there is a first one. -/
theorem none_or_split (kind : SectionKind) (name : String) (nodes : List Node) :
    (∀ node ∈ nodes, isDefinitionNamed kind name node = false) ∨
      ∃ (front : List Node) (e : Element) (back : List Node),
        (∀ node ∈ front, isDefinitionNamed kind name node = false) ∧
          isDefinitionNamed kind name e.toNode = true ∧ nodes = front ++ e.toNode :: back := by
  induction nodes with
  | nil => exact .inl (by simp)
  | cons node nodes ih =>
      by_cases hnode : isDefinitionNamed kind name node = true
      · refine .inr ⟨[], ?_⟩
        cases node with
        | element tag attributes children =>
            exact ⟨⟨tag, attributes, children⟩, nodes, by simp, hnode, rfl⟩
        | _ => cases hnode
      · have hnode := Bool.eq_false_iff.2 hnode
        rcases ih with hnone | ⟨front, e, back, hfront, he, rfl⟩
        · exact .inl (List.forall_mem_cons.2 ⟨hnode, hnone⟩)
        · exact .inr ⟨node :: front, e, back, List.forall_mem_cons.2 ⟨hnode, hfront⟩, he, rfl⟩

end UpdateFirst

/-! ## Kept children under edits -/

variable {replaced : List String} {loaded d d' : TransferDocument} {kind : SectionKind}
  {nodes kept added : List Node}

theorem Kept.refl (replaced : List String) (kind : SectionKind) (nodes : List Node) :
    Kept replaced kind nodes nodes := by
  cases kind with
  | rules => exact ⟨[], by simp, (List.filter_eq_self.2 fun _ _ => rfl).symm⟩
  | attributes => exact Or.inl rfl
  | _ => exact Eq.refl nodes

/-- Removing the rules of a replaced name from kept children. -/
theorem Kept.dropRule (h : Kept replaced .rules nodes kept) {name : String}
    (hname : name ∈ replaced) :
    Kept replaced .rules nodes (kept.filter fun node => !isDefinitionNamed .rules name node) := by
  obtain ⟨gone, hgone, rfl⟩ := h
  refine ⟨name :: gone, List.forall_mem_cons.2 ⟨hname, hgone⟩, ?_⟩
  rw [List.filter_filter]
  congr 1
  funext node
  rw [List.any_cons, Bool.not_or]

/-- Removing macros or variables of a name that no loaded one has. -/
theorem Kept.filter_of_notMem (h : Kept replaced kind nodes kept)
    (hkind : kind = .macros ∨ kind = .vars) {name : String} (hname : name ∉ namesIn kind nodes) :
    Kept replaced kind nodes (kept.filter fun node => !isDefinitionNamed kind name node) := by
  have heq : kept = nodes := by
    rcases hkind with rfl | rfl
    · exact h
    · exact h
  subst heq
  rw [List.filter_eq_self.2]
  · exact h
  · intro node hnode
    rw [Bool.not_eq_true']
    exact Bool.eq_false_iff.2 fun hnamed => hname (mem_namesIn.2 ⟨node, hnode, hnamed⟩)

/-- The category attribute is among the kept children, or it was added later and grows there. -/
theorem Kept.extend (h : Kept replaced .attributes nodes kept) (tags : List String) :
    ∃ kept' added',
      updateFirst .attributes gramCatName (fun e => e.pushAll (tags.map attributeItem))
        (kept ++ added) = kept' ++ added' ∧ Kept replaced .attributes nodes kept' := by
  rcases h with rfl | ⟨front, e, back, earlier, hfront, he, hnodes, rfl⟩
  · rcases none_or_split .attributes gramCatName kept with
      hnone | ⟨front, e, back, hfront, he, hkept⟩
    · -- Nothing of the name was loaded: it is a later definition that grows.
      exact ⟨kept, _, updateFirst_append_of_none hnone, .refl replaced .attributes kept⟩
    · refine ⟨_, added, ?_, .inr ⟨front, e, back, tags, hfront, he, hkept, rfl⟩⟩
      rw [hkept, List.append_assoc, List.cons_append, updateFirst_of_split hfront he,
        List.append_assoc, List.cons_append]
  · -- It has grown before: the items of both times come one after the other.
    have hgrown : isDefinitionNamed .attributes gramCatName
        (e.pushAll (earlier.map attributeItem)).toNode = true :=
      isDefinitionNamed_toNode.2 (isDefinitionNamed_toNode.1 he)
    have hboth : (e.pushAll (earlier.map attributeItem)).pushAll (tags.map attributeItem) =
        e.pushAll ((earlier ++ tags).map attributeItem) := by
      simp [Element.pushAll]
    refine ⟨_, added, ?_, .inr ⟨front, e, back, earlier ++ tags, hfront, he, hnodes, rfl⟩⟩
    rw [List.append_assoc, List.cons_append, updateFirst_of_split hfront hgrown, hboth,
      List.append_assoc, List.cons_append]

/-! ## The invariant -/

/-- What an edit preserves: what was loaded, and that loaded macros and variables are known to be
loaded. -/
structure Intact (replaced : List String) (loaded d : TransferDocument) : Prop where
  frame : d.frame = loaded.frame
  heads : ∀ kind head, loaded.headOf kind = some head → d.headOf kind = some head
  children : ∀ kind, ∃ kept added, d.childrenOf kind = kept ++ added ∧
    Kept replaced kind (loaded.childrenOf kind) kept
  provenance : ∀ kind, kind = .macros ∨ kind = .vars → ∀ name ∈ loaded.definitionNames kind,
    d.provenanceOf? kind name = some .loaded

theorem Intact.preserved (h : Intact replaced loaded d) : Preserved replaced loaded d where
  doctype := show d.frame.doctype = loaded.frame.doctype by rw [h.frame]
  prolog := show d.frame.prolog = loaded.frame.prolog by rw [h.frame]
  epilog := show d.frame.epilog = loaded.frame.epilog by rw [h.frame]
  rootAttributes := show d.frame.rootAttributes = loaded.frame.rootAttributes by rw [h.frame]
  extras := show d.frame.extras = loaded.frame.extras by rw [h.frame]
  heads := h.heads
  children := h.children

theorem Intact.refl (replaced : List String) (hloaded : loaded.AsLoaded) :
    Intact replaced loaded loaded where
  frame := rfl
  heads _ _ h := h
  children kind := ⟨loaded.childrenOf kind, [], (List.append_nil _).symm, .refl replaced kind _⟩
  provenance kind _ name hname := by rw [hloaded kind name, if_pos hname]

/-- A definition that is added comes after all that is kept, and its name keeps the provenance
that it has. -/
theorem Intact.addDefinition (h : Intact replaced loaded d) {name : String} {e : Element}
    (hname : definitionName? kind e = some name) :
    Intact replaced loaded (d.addDefinition kind e) where
  frame := h.frame
  heads other head hhead := by
    rw [headOf_addDefinition]
    split
    · next heq =>
      subst heq
      rw [h.heads other head hhead]
      rfl
    · exact h.heads other head hhead
  children other := by
    obtain ⟨kept, added, heq, hkept⟩ := h.children other
    rw [childrenOf_addDefinition]
    split
    · next hkind =>
      subst hkind
      exact ⟨kept, added ++ [e.toNode], by rw [heq, List.append_assoc], hkept⟩
    · exact ⟨kept, added, heq, hkept⟩
  provenance other hother n hn := by
    have hold := h.provenance other hother n hn
    rw [provenanceOf?_addDefinition hname]
    split
    · next heq =>
      obtain ⟨rfl, rfl⟩ := heq
      rw [hold]
      rfl
    · exact hold

theorem Intact.extendGramCat (h : Intact replaced loaded d) (tags : List String) :
    Intact replaced loaded (d.updateDefinition .attributes gramCatName fun e =>
      e.pushAll (tags.map attributeItem)) where
  frame := by rw [frame_updateDefinition, h.frame]
  heads other head hhead := by
    rw [headOf_updateDefinition]
    exact h.heads other head hhead
  children other := by
    obtain ⟨kept, added, heq, hkept⟩ := h.children other
    rw [childrenOf_updateDefinition]
    split
    · next hkind =>
      subst hkind
      rw [heq]
      exact hkept.extend tags
    · exact ⟨kept, added, heq, hkept⟩
  provenance other hother n hn := by
    rw [provenanceOf?_updateDefinition]
    exact h.provenance other hother n hn

/-- A removal among the children of a section is one among the kept and the added ones.  It may
not take a loaded macro or variable. -/
theorem Intact.removeDefinition (h : Intact replaced loaded d) {name : String}
    (hkept : ∀ kept, Kept replaced kind (loaded.childrenOf kind) kept →
      Kept replaced kind (loaded.childrenOf kind)
        (kept.filter fun node => !isDefinitionNamed kind name node))
    (hnot : kind = .macros ∨ kind = .vars → name ∉ loaded.definitionNames kind) :
    Intact replaced loaded (d.removeDefinition kind name) where
  frame := by rw [frame_removeDefinition, h.frame]
  heads other head hhead := by
    rw [headOf_removeDefinition]
    exact h.heads other head hhead
  children other := by
    obtain ⟨kept, added, heq, hother⟩ := h.children other
    rw [childrenOf_removeDefinition]
    by_cases hkind : other = kind
    · subst hkind
      rw [if_pos rfl, heq, List.filter_append]
      exact ⟨_, _, rfl, hkept kept hother⟩
    · rw [if_neg hkind]
      exact ⟨kept, added, heq, hother⟩
  provenance other hother n hn := by
    rw [provenanceOf?_removeDefinition, if_neg]
    · exact h.provenance other hother n hn
    · rintro ⟨rfl, rfl, -⟩
      exact hnot hother hn

/-- **Step lemma.**  Every edit leaves what was loaded intact. -/
theorem Intact.edit (h : Intact replaced loaded d) (hedit : Edit replaced d d') :
    Intact replaced loaded d' := by
  cases hedit with
  | add htag hname hfresh => exact h.addDefinition hname
  | extend tags => exact h.extendGramCat tags
  | dropRule hname =>
      refine h.removeDefinition (fun kept hkept => hkept.dropRule hname) ?_
      rintro (hkind | hkind)
      · cases hkind
      · cases hkind
  | dropUnused hkind hgenerated =>
      rename_i kind name
      -- Nothing that was loaded has the name, since loaded names are known to be loaded.
      have hnot : name ∉ loaded.definitionNames kind :=
        fun hloaded => hgenerated (h.provenance kind hkind name hloaded)
      refine h.removeDefinition (fun kept hkept => hkept.filter_of_notMem hkind ?_) fun _ => hnot
      rwa [← definitionNames_eq]

/-- **Run lemma.**  So do any number of edits. -/
theorem Intact.edits (h : Intact replaced loaded d)
    (hedits : Relation.ReflTransGen (Edit replaced) d d') : Intact replaced loaded d' := by
  induction hedits with
  | refl => exact h
  | tail _ hedit ih => exact ih.edit hedit

namespace Session

variable {s : Session}

/-- **What was loaded is preserved.**  Once a text has been loaded, no sequence of operations
touches what the file holds, but for rules that a processed specification replaces and for items
that the category attribute gets. -/
theorem preserved_of_load {text : String} {loaded : Session}
    (hload : s.loadText text = .ok loaded) (ops : List Operation) :
    Preserved (ops.flatMap (Operation.replaced loaded.settings)) loaded.document
      (loaded.applyAll ops).document := by
  obtain ⟨d, hd, rfl⟩ := loadText_eq_ok hload
  have hchanges := applyAll_changes (s := s.load d) (.ofDocument hd) ops
  exact ((Intact.refl _ hd).edits hchanges.edits).preserved

/-- A file with a comment and a rule without a name, to which a variable is added and taken away
again. -/
theorem preserved_of_load_comment :
    ∃ loaded, (start ⟨"source", .empty, .empty⟩ ⟨"target", .empty, .empty⟩ {}).loadText
        "<transfer><section-rules><!--kept--><rule/></section-rules></transfer>" = .ok loaded ∧
      loaded.document.childrenOf .rules = [.comment "kept", .element "rule" [] []] ∧
      Preserved [] loaded.document
        (loaded.applyAll [.addVariable "v" none, .trim]).document := by
  have hload : (start ⟨"source", .empty, .empty⟩ ⟨"target", .empty, .empty⟩ {}).loadText
      "<transfer><section-rules><!--kept--><rule/></section-rules></transfer>" =
      .ok ((start ⟨"source", .empty, .empty⟩ ⟨"target", .empty, .empty⟩ {}).load
        { doctype := none
          sections := PerSection.set (.const none) .rules
            (some ⟨[], [.comment "kept", .element "rule" [] []], .loaded, []⟩) }) := by
    with_unfolding_all rfl
  exact ⟨_, hload, rfl, preserved_of_load hload [.addVariable "v" none, .trim]⟩

end Session

end TransferRules
