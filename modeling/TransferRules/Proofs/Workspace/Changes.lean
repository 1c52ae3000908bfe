import TransferRules.Proofs.Workspace.Requests

/-!
# How a workspace changes

Work on a workspace makes requests, adds rules, and removes rules that are about to be replaced.
Between two loads a workspace is worked on, and loses generated macros and variables that are not
used.  Seen from the document, all of this comes down to four edits.

## Main Definitions

* `Workspace.discard` — remove the definitions of some names and free the names
* `Workspace.Work` — one change that work makes
* `Workspace.Change` — one change between two loads
* `Edit` — one edit of the document

## Main Statements

* `Workspace.Coherent.changes` — changes keep a workspace coherent
* `Workspace.Change.edits` — a change of the workspace is made of edits of its document
* `Edit.countNamed_le` — no edit gives a name to a second definition
* `GeneratedOnce.edits` — so a generated name belongs to one definition

## Design Notes

The names of the rules that may be replaced are a parameter: which ones they are depends on what
is processed, and only the preservation of loaded rules has to know them.
-/

namespace TransferRules

open TransferRules.Compile
open TransferRules.Markup
open TransferRules.Ordered
open TransferRules.Transfer

/-! ## Edits of the document -/

/-- One edit of a transfer document between two loads; `replaced` are the names of the rules that
may be removed. -/
inductive Edit (replaced : List String) : TransferDocument → TransferDocument → Prop where
  /-- A definition is added under a name that no definition of its section has. -/
  | add (d : TransferDocument) {kind : SectionKind} {name : String} {e : Element}
      (htag : e.name = kind.definitionTag) (hname : definitionName? kind e = some name)
      (hfresh : name ∉ d.definitionNames kind) :
      Edit replaced d (d.addDefinition kind e)
  /-- The category attribute gets more items. -/
  | extend (d : TransferDocument) (tags : List String) :
      Edit replaced d (d.updateDefinition .attributes gramCatName fun e =>
        e.pushAll (tags.map attributeItem))
  /-- The rules of a name are removed. -/
  | dropRule (d : TransferDocument) {name : String} (hname : name ∈ replaced) :
      Edit replaced d (d.removeDefinition .rules name)
  /-- A macro or variable is removed that was not loaded. -/
  | dropUnused (d : TransferDocument) {kind : SectionKind} {name : String}
      (hkind : kind = .macros ∨ kind = .vars)
      (hgenerated : d.provenanceOf? kind name ≠ some .loaded) :
      Edit replaced d (d.removeDefinition kind name)

variable {replaced : List String} {d d' : TransferDocument} {kind : SectionKind} {name : String}

/-- **No edit gives a name to a second definition.** -/
theorem Edit.countNamed_le (h : Edit replaced d d') (kind : SectionKind) (name : String) :
    d'.countNamed kind name ≤ max 1 (d.countNamed kind name) := by
  simp only [TransferDocument.countNamed_eq]
  have hremove : ∀ (other : SectionKind) (n : String),
      ((d.removeDefinition other n).definitionNames kind).count name ≤
        (d.definitionNames kind).count name := by
    intro other n
    rw [TransferDocument.definitionNames_removeDefinition]
    split
    · next heq =>
      subst heq
      exact List.filter_sublist.count_le name
    · exact Nat.le_refl _
  cases h with
  | add htag hname hfresh =>
      rename_i other n e
      rw [TransferDocument.definitionNames_addDefinition htag hname]
      split
      · next heq =>
        subst heq
        rw [List.count_append]
        by_cases hn : name = n
        · -- The new name was not defined, so now it is defined once.
          subst hn
          rw [List.count_eq_zero_of_not_mem hfresh]
          simp
        · rw [List.count_singleton, if_neg (by simpa using fun h => hn h.symm)]
          omega
      · omega
  | extend tags =>
      rw [Workspace.definitionNames_updateDefinition_pushAll]
      omega
  | dropRule _ => exact Nat.le_trans (hremove _ _) (Nat.le_max_right _ _)
  | dropUnused _ _ => exact Nat.le_trans (hremove _ _) (Nat.le_max_right _ _)

/-- A name that is generated after an edit was generated before, or it was not defined. -/
theorem Edit.generated_or_notMem (h : Edit replaced d d')
    (hgenerated : d'.provenanceOf? kind name = some .generated) :
    d.provenanceOf? kind name = some .generated ∨ name ∉ d.definitionNames kind := by
  have hremove : ∀ (other : SectionKind) (n : String),
      (d.removeDefinition other n).provenanceOf? kind name = some .generated →
        d.provenanceOf? kind name = some .generated := by
    intro other n hremoved
    rw [TransferDocument.provenanceOf?_removeDefinition] at hremoved
    split at hremoved
    · cases hremoved
    · exact hremoved
  cases h with
  | add htag hname hfresh =>
      rw [TransferDocument.provenanceOf?_addDefinition hname] at hgenerated
      split at hgenerated
      · next heq =>
        obtain ⟨rfl, rfl⟩ := heq
        exact .inr hfresh
      · exact .inl hgenerated
  | extend tags => exact .inl (TransferDocument.provenanceOf?_updateDefinition _ ▸ hgenerated)
  | dropRule _ => exact .inl (hremove _ _ hgenerated)
  | dropUnused _ _ => exact .inl (hremove _ _ hgenerated)

/-- No edit makes a name a loaded one. -/
theorem Edit.loaded_of_loaded (h : Edit replaced d d')
    (hloaded : d'.provenanceOf? kind name = some .loaded) :
    d.provenanceOf? kind name = some .loaded := by
  have hremove : ∀ (other : SectionKind) (n : String),
      (d.removeDefinition other n).provenanceOf? kind name = some .loaded →
        d.provenanceOf? kind name = some .loaded := by
    intro other n hremoved
    rw [TransferDocument.provenanceOf?_removeDefinition] at hremoved
    split at hremoved
    · cases hremoved
    · exact hremoved
  cases h with
  | add htag hname hfresh =>
      rw [TransferDocument.provenanceOf?_addDefinition hname] at hloaded
      split at hloaded
      · next heq =>
        obtain ⟨rfl, rfl⟩ := heq
        cases hold : d.provenanceOf? kind name with
        | none =>
            rw [hold] at hloaded
            cases hloaded
        | some p =>
            rw [hold] at hloaded
            exact hloaded
      · exact hloaded
  | extend tags => exact TransferDocument.provenanceOf?_updateDefinition _ ▸ hloaded
  | dropRule _ => exact hremove _ _ hloaded
  | dropUnused _ _ => exact hremove _ _ hloaded

/-- Nor do several, so what is loaded in the end was loaded from the start. -/
theorem loaded_of_edits (h : Relation.ReflTransGen (Edit replaced) d d')
    (hloaded : d'.provenanceOf? kind name = some .loaded) :
    d.provenanceOf? kind name = some .loaded := by
  induction h with
  | refl => exact hloaded
  | tail _ hedit ih => exact ih (hedit.loaded_of_loaded hloaded)

/-- Generated names belong to one definition. -/
def GeneratedOnce (d : TransferDocument) : Prop :=
  ∀ kind name, d.provenanceOf? kind name = some .generated → d.countNamed kind name ≤ 1

theorem GeneratedOnce.edits (hd : GeneratedOnce d)
    (h : Relation.ReflTransGen (Edit replaced) d d') : GeneratedOnce d' := by
  induction h with
  | refl => exact hd
  | tail _ hedit ih =>
      rename_i d₁ d₂ _
      intro kind name hgenerated
      have hbefore : d₁.countNamed kind name ≤ 1 := by
        rcases hedit.generated_or_notMem hgenerated with hold | hfresh
        · exact ih kind name hold
        · rw [TransferDocument.countNamed_eq, List.count_eq_zero_of_not_mem hfresh]
          exact Nat.zero_le 1
      exact Nat.le_trans (hedit.countNamed_le kind name) (Nat.max_le.2 ⟨Nat.le_refl 1, hbefore⟩)

theorem countNamed_le_of_edits (h : Relation.ReflTransGen (Edit replaced) d d')
    (kind : SectionKind) (name : String) :
    d'.countNamed kind name ≤ max 1 (d.countNamed kind name) := by
  induction h with
  | refl => exact Nat.le_max_right _ _
  | tail _ hedit ih =>
      have hle := hedit.countNamed_le kind name
      omega

namespace Workspace

variable {w w' : Workspace}

/-! ## Changes of the workspace -/

/-- Remove the definitions of some names and free the names; no macro that is removed is held. -/
def discard (w : Workspace) (kind : SectionKind) (names : List String) : Workspace where
  document := w.document.removeAll kind names
  names := w.names.releaseAll kind names
  attributes := w.attributes
  macros :=
    match kind with
    | .macros => w.macros.forget names
    | _ => w.macros

/-- One change that work on a workspace makes: a request lets it grow, a name is taken, a rule is
added, or the rules of a name are removed. -/
inductive Work (replaced : List String) : Workspace → Workspace → Prop where
  | request {w w' : Workspace} {ctx : Lexicons} (h : Request ctx w w') (hgrows : Grows w w') :
      Work replaced w w'
  | take (w : Workspace) (kind : SectionKind) (name : String) :
      Work replaced w { w with names := w.names.reserve kind name }
  | addRule (w : Workspace) {name : String} {e : Element}
      (htag : e.name = SectionKind.rules.definitionTag)
      (hname : definitionName? .rules e = some name)
      (hfresh : name ∉ w.document.definitionNames .rules) :
      Work replaced w (w.define .rules name e)
  | dropRule (w : Workspace) {name : String} (hname : name ∈ replaced) :
      Work replaced w (w.discard .rules [name])

/-- Any number of changes that work makes. -/
abbrev Works (replaced : List String) : Workspace → Workspace → Prop :=
  Relation.ReflTransGen (Work replaced)

/-- One change of a workspace between two loads: work, or the removal of what is not used. -/
inductive Change (replaced : List String) : Workspace → Workspace → Prop where
  | work {w w' : Workspace} (h : Work replaced w w') : Change replaced w w'
  | dropUnused (w : Workspace) {kind : SectionKind} {names : List String}
      (hkind : kind = .macros ∨ kind = .vars)
      (hgenerated : ∀ name ∈ names, w.document.provenanceOf? kind name ≠ some .loaded) :
      Change replaced w (w.discard kind names)

/-- Any number of changes. -/
abbrev Changes (replaced : List String) : Workspace → Workspace → Prop :=
  Relation.ReflTransGen (Change replaced)

theorem mem_definitionNames_discard {names : List String} {other : SectionKind} {n : String} :
    n ∈ (w.discard kind names).document.definitionNames other ↔
      n ∈ w.document.definitionNames other ∧ ¬ (other = kind ∧ n ∈ names) := by
  show n ∈ (w.document.removeAll kind names).definitionNames other ↔ _
  rw [TransferDocument.definitionNames_removeAll]
  by_cases h : other = kind
  · subst h
    simp
  · simp [h]

/-- The definitions of other sections stay. -/
theorem definitions_discard {names : List String} {other : SectionKind} (h : other ≠ kind) :
    (w.discard kind names).document.definitions other = w.document.definitions other := by
  show (w.document.removeAll kind names).definitions other = _
  rw [TransferDocument.definitions_eq, TransferDocument.childrenOf_removeAll, if_neg h,
    TransferDocument.definitions_eq]

/-- A lemma macro that is still held was held before, and it is not removed. -/
theorem of_mem_lemmaMacros_discard {names : List String} {entry : (String × String) × MacroHandle}
    (h : entry ∈ (w.discard kind names).macros.lemmaMacros) :
    entry ∈ w.macros.lemmaMacros ∧ (kind = .macros → entry.2.name ∉ names) := by
  cases kind with
  | macros =>
      obtain ⟨hheld, hkept⟩ := List.mem_filter.1 h
      exact ⟨hheld, fun _ => by simpa using hkept⟩
  | _ => exact ⟨h, nofun⟩

/-- And so for the disjoint macro. -/
theorem of_mem_disjoint_discard {names : List String} {entry : DisjointSet × MacroHandle}
    (h : entry ∈ (w.discard kind names).macros.disjoint) :
    entry ∈ w.macros.disjoint ∧ (kind = .macros → entry.2.name ∉ names) := by
  cases kind with
  | macros =>
      obtain ⟨hheld, hkept⟩ := Option.mem_filter_iff.1 h
      exact ⟨hheld, fun _ => by simpa using hkept⟩
  | _ => exact ⟨h, nofun⟩

/-- Attributes are not removed, so what was resolved stays defined; a macro that is removed is
not held any more. -/
theorem Coherent.discard (hw : w.Coherent) (hkind : kind ≠ .attributes) (names : List String) :
    (w.discard kind names).Coherent := by
  have hattributes : ∀ n, n ∈ w.document.definitionNames .attributes →
      n ∈ (w.discard kind names).document.definitionNames .attributes :=
    fun n hmem => mem_definitionNames_discard.2 ⟨hmem, fun h => hkind h.1.symm⟩
  -- Whoever is held is not among the names that are removed.
  have hmacros : ∀ n, n ∈ w.document.definitionNames .macros → (kind = .macros → n ∉ names) →
      n ∈ (w.discard kind names).document.definitionNames .macros :=
    fun n hmem hkept => mem_definitionNames_discard.2 ⟨hmem, fun h => hkept h.1.symm h.2⟩
  refine ⟨?_, ?_, ?_, ?_, ?_, ?_⟩
  · intro other n
    rw [mem_definitionNames_discard, ← hw.provenance]
    show ((w.document.removeAll kind names).provenanceOf? other n).isSome = true ↔ _
    rw [TransferDocument.provenanceOf?_removeAll]
    by_cases h : other = kind ∧ n ∈ names
    · obtain ⟨rfl, hn⟩ := h
      by_cases hdefined : n ∈ w.document.definitionNames other
      · simp [hn, hdefined]
      · have hnone := mt (hw.provenance other n).1 hdefined
        simp [hn, hdefined, Option.not_isSome_iff_eq_none.1 hnone]
    · rw [if_neg fun hall => h ⟨hall.1, hall.2.1⟩]
      simp [h]
  · intro other n hmem
    obtain ⟨hold, hkept⟩ := mem_definitionNames_discard.1 hmem
    exact NameTable.mem_used_releaseAll.2 ⟨hw.used other n hold, hkept⟩
  · show w.attributes.valueSets =
      (AttributeTable.ofDocument (w.document.removeAll kind names)).valueSets
    rw [AttributeTable.valueSets_ofDocument, TransferDocument.childrenOf_removeAll,
      if_neg hkind.symm, hw.valueSets, AttributeTable.valueSets_ofDocument]
  · exact fun entry hentry => hattributes _ (hw.resolved entry hentry)
  · intro entry hentry
    obtain ⟨hheld, hkept⟩ := of_mem_lemmaMacros_discard hentry
    exact hmacros _ (hw.lemmaMacros entry hheld) hkept
  · intro entry hentry
    obtain ⟨hheld, hkept⟩ := of_mem_disjoint_discard hentry
    exact hmacros _ (hw.disjoint entry hheld) hkept

/-- Work keeps a workspace coherent. -/
theorem Coherent.work (hw : w.Coherent) (h : Work replaced w w') : w'.Coherent := by
  cases h with
  | request _ hgrows => exact hw.grows hgrows
  | take kind name =>
      exact hw.of_names fun other n hmem => NameTable.mem_used_reserve.2 (.inl hmem)
  | addRule htag hname _ => exact hw.define nofun htag hname
  | dropRule _ =>
      refine hw.discard ?_ _
      exact nofun

/-- **Step lemma.**  Every change keeps a workspace coherent. -/
theorem Coherent.change (hw : w.Coherent) (h : Change replaced w w') : w'.Coherent := by
  cases h with
  | work h => exact hw.work h
  | dropUnused hkind _ =>
      refine hw.discard ?_ _
      rcases hkind with rfl | rfl
      · exact nofun
      · exact nofun

/-- **Run lemma.**  Changes keep a workspace coherent. -/
theorem Coherent.changes (hw : w.Coherent) (h : Changes replaced w w') : w'.Coherent := by
  induction h with
  | refl => exact hw
  | tail _ hstep ih => exact ih.change hstep

theorem Coherent.request (hw : w.Coherent) {ctx : Lexicons} (h : Request ctx w w') :
    Works replaced w w' :=
  .single (.request h (h.grows hw))

theorem Works.changes (h : Works replaced w w') : Changes replaced w w' :=
  Relation.ReflTransGen.mono (fun _ _ => .work) _ _ h

theorem Coherent.works (hw : w.Coherent) (h : Works replaced w w') : w'.Coherent :=
  hw.changes h.changes

/-- More rules may be removed. -/
theorem Work.weaken {more : List String} (h : Work replaced w w')
    (hmore : ∀ name ∈ replaced, name ∈ more) : Work more w w' := by
  cases h with
  | request h hgrows => exact .request h hgrows
  | take kind name => exact .take _ kind name
  | addRule htag hname hfresh => exact .addRule _ htag hname hfresh
  | dropRule hname => exact .dropRule _ (hmore _ hname)

theorem Works.weaken {more : List String} (h : Works replaced w w')
    (hmore : ∀ name ∈ replaced, name ∈ more) : Works more w w' :=
  Relation.ReflTransGen.mono (fun _ _ hwork => hwork.weaken hmore) _ _ h

theorem Changes.weaken {more : List String} (h : Changes replaced w w')
    (hmore : ∀ name ∈ replaced, name ∈ more) : Changes more w w' := by
  refine Relation.ReflTransGen.mono (fun _ _ hchange => ?_) _ _ h
  cases hchange with
  | work hwork => exact .work (hwork.weaken hmore)
  | dropUnused hkind hgenerated => exact .dropUnused _ hkind hgenerated

/-! ## The edits that changes are made of -/

theorem Growth.edits (h : Growth w w') :
    Relation.ReflTransGen (Edit replaced) w.document w'.document := by
  cases h with
  | define _ _ htag hname hfresh => exact .single (.add w.document htag hname hfresh)
  | defineAttribute values hfresh =>
      exact .single (.add w.document rfl (definitionName?_attributeElement _ values) hfresh)
  | extendGramCat categories hdefined =>
      obtain ⟨tags, attributes, heq, -⟩ := ensureGramCat_eq categories hdefined
      rw [heq]
      exact .single (.extend w.document tags)
  | take _ _ _ => exact .refl
  | resolve _ _ => exact .refl
  | holdLemmaMacro _ _ => exact .refl
  | holdDisjointMacro _ _ => exact .refl

theorem Grows.edits (h : Grows w w') :
    Relation.ReflTransGen (Edit replaced) w.document w'.document := by
  induction h with
  | refl => exact .refl
  | tail _ hgrowth ih => exact ih.trans hgrowth.edits

/-- Removing definitions gives no name the provenance of a loaded one, so names that may be
removed may still be removed later. -/
theorem removeAll_edits {names : List String} (hkind : kind = .macros ∨ kind = .vars)
    (hgenerated : ∀ name ∈ names, d.provenanceOf? kind name ≠ some .loaded) :
    Relation.ReflTransGen (Edit replaced) d (d.removeAll kind names) := by
  induction names generalizing d with
  | nil => exact .refl
  | cons name names ih =>
      refine .head (.dropUnused d hkind (hgenerated name List.mem_cons_self)) (ih ?_)
      intro n hn
      rw [TransferDocument.provenanceOf?_removeDefinition]
      split
      · exact nofun
      · exact hgenerated n (List.mem_cons_of_mem _ hn)

theorem Change.edits (h : Change replaced w w') :
    Relation.ReflTransGen (Edit replaced) w.document w'.document := by
  cases h with
  | work h =>
      cases h with
      | request _ hgrows => exact hgrows.edits
      | take _ _ => exact .refl
      | addRule htag hname hfresh => exact .single (.add w.document htag hname hfresh)
      | dropRule hname => exact .single (.dropRule w.document hname)
  | dropUnused hkind hgenerated => exact removeAll_edits hkind hgenerated

theorem Changes.edits (h : Changes replaced w w') :
    Relation.ReflTransGen (Edit replaced) w.document w'.document := by
  induction h with
  | refl => exact .refl
  | tail _ hstep ih => exact ih.trans hstep.edits

end Workspace

end TransferRules
