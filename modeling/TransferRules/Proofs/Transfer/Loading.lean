import TransferRules.Proofs.Transfer.Sections
import TransferRules.Transfer.Layout

/-!
# Provenance of what is loaded

Sorting a file into sections records every definition with a name as loaded, and nothing else.

## Main Definitions

* `TransferDocument.AsLoaded` — exactly the names of its definitions are recorded, as loaded

## Main Statements

* `TransferDocument.asLoaded_of_parse` — a document that was just read is as it was loaded
-/

namespace TransferRules.Transfer

open TransferRules.Markup

namespace Section

variable {s : Section} {names : List String} {n : String}

theorem provenanceOf?_foldl_setProvenance {p : Provenance} :
    (names.foldl (fun s name => s.setProvenance name p) s).provenanceOf? n =
      if n ∈ names then some p else s.provenanceOf? n := by
  induction names generalizing s with
  | nil => simp
  | cons name names ih =>
      rw [List.foldl_cons, ih, provenanceOf?_setProvenance]
      by_cases hn : n ∈ names
      · simp [hn]
      · simp [hn, List.mem_cons]

theorem children_foldl_setProvenance {p : Provenance} :
    (names.foldl (fun s name => s.setProvenance name p) s).children = s.children := by
  induction names generalizing s with
  | nil => rfl
  | cons name names ih => rw [List.foldl_cons, ih, setProvenance]

end Section

namespace TransferDocument

/-- Exactly the names of the definitions are recorded, all of them as loaded. -/
def AsLoaded (d : TransferDocument) : Prop :=
  ∀ kind name, d.provenanceOf? kind name =
    if name ∈ d.definitionNames kind then some .loaded else none

theorem asLoaded_of_sections {d : TransferDocument} (h : d.sections = .const none) :
    d.AsLoaded := by
  intro kind name
  have hnone : d.sectionOf? kind = none := by simp [sectionOf?, h]
  simp [provenanceOf?, definitionNames, definitions, hnone]

variable {d : TransferDocument} {kind : SectionKind}

/-- The children of one more element are added to those of its section, and their names are
recorded. -/
theorem absorbSection_eq (d : TransferDocument) (kind : SectionKind) (e : Element) :
    ∃ s : Section, s.children = d.childrenOf kind ++ e.children ∧
      (∀ n, s.provenanceOf? n = d.provenanceOf? kind n) ∧
      d.absorbSection kind e = d.setSection kind (markLoaded kind e s) := by
  unfold absorbSection
  cases hs : d.sectionOf? kind with
  | none =>
      refine ⟨⟨e.attributes, e.children, .loaded, []⟩, ?_, ?_, rfl⟩
      · simp [childrenOf, hs]
      · intro n
        simp [provenanceOf?, hs, Section.provenanceOf?]
  | some s =>
      refine ⟨{ s with children := s.children ++ e.children, provenance := .loaded }, ?_, ?_, rfl⟩
      · simp [childrenOf, hs]
      · intro n
        simp [provenanceOf?, hs, Section.provenanceOf?]

theorem AsLoaded.absorbSection (h : d.AsLoaded) (e : Element) :
    (d.absorbSection kind e).AsLoaded := by
  obtain ⟨s, hchildren, hprovenance, heq⟩ := absorbSection_eq d kind e
  have hnames : (e.childrenNamed kind.definitionTag).filterMap (definitionName? kind) =
      namesIn kind e.children := filterMap_definitionName?
  intro other name
  rw [heq, provenanceOf?_setSection, definitionNames_eq, childrenOf_setSection]
  by_cases hkind : other = kind
  · subst hkind
    rw [if_pos rfl, if_pos rfl, markLoaded, hnames, Section.provenanceOf?_foldl_setProvenance,
      Section.children_foldl_setProvenance, hchildren, hprovenance, h other name,
      definitionNames_eq]
    -- The last recording of a name decides, and all of them say that it was loaded.
    by_cases he : name ∈ namesIn other e.children
    · simp only [namesIn, List.filterMap_append, List.mem_append] at he ⊢
      simp [he]
    · simp only [namesIn, List.filterMap_append, List.mem_append] at he ⊢
      simp [he]
  · rw [if_neg hkind, if_neg hkind, h other name, definitionNames_eq]

theorem AsLoaded.absorbNode (h : d.AsLoaded) (node : Node) : (d.absorbNode node).AsLoaded := by
  unfold TransferDocument.absorbNode
  split
  · exact h
  · split
    · exact h.absorbSection _
    · exact h

theorem asLoaded_ofMarkup (document : Markup.Document) : (ofMarkup document).AsLoaded := by
  have hfold : ∀ (nodes : List Node) {d : TransferDocument}, d.AsLoaded →
      (nodes.foldl TransferDocument.absorbNode d).AsLoaded := by
    intro nodes
    induction nodes with
    | nil => exact fun h => h
    | cons node nodes ih => exact fun h => ih (h.absorbNode node)
  exact hfold _ (asLoaded_of_sections rfl)

/-- A document that was just read is as it was loaded. -/
theorem asLoaded_of_parse {text : String} (h : parse text = .ok d) : d.AsLoaded := by
  unfold parse at h
  cases hroot : parseRooted rootTag text with
  | error error =>
      rw [hroot] at h
      cases h
  | ok document =>
      rw [hroot] at h
      cases h
      exact asLoaded_ofMarkup document

end TransferDocument

end TransferRules.Transfer
