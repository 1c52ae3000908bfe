import TransferRules.Proofs.Workspace.Changes

/-!
# The macros that are held

A macro that was made or found once is held, and from then on it is answered without a look at
the document.  So it matters that its variables stay defined: the one that it sets, and for the
macro of a disjoint set also the one in which it finds the co-feature.  Work on a workspace never
takes a variable away, and a macro that it makes comes with its variables.

## Main Definitions

* `Workspace.Enriches` — what work does to macros and their variables
* `Workspace.Supplied` — the variables of the held macros are defined
* `Workspace.Serviced` — they are, as far as the macros of their names mention them
* `Workspace.MacrosMade` — what is generated was made from a lexicon

## Main Statements

* `Workspace.Works.enriches` — work enriches a workspace
* `Workspace.Supplied.enriches`, `Workspace.Serviced.enriches`, `Workspace.MacrosMade.enriches` —
  what a workspace keeps that is enriched

## Design Notes

A workspace is not supplied in all sessions, because a trim may take away a variable of a macro
that was loaded.  What is left of it then is that the workspace is serviced.
-/

namespace TransferRules

open TransferRules.Action
open TransferRules.Markup
open TransferRules.Transfer

namespace Workspace

variable {w w' w'' : Workspace} {replaced : List String}

/-- What work does to macros: no macro or variable goes away, macros that are made come to the end
under new names and with their variables, and so do those that are held from then on. -/
structure Enriches (w w' : Workspace) : Prop where
  vars : ∀ v ∈ w.document.definitionNames .vars, v ∈ w'.document.definitionNames .vars
  provenance : ∀ n ∈ w.document.definitionNames .macros,
    w'.document.provenanceOf? .macros n = w.document.provenanceOf? .macros n
  macros : ∃ new : List MacroDefinition, w'.document.definitions .macros =
      w.document.definitions .macros ++ new.map MacroDefinition.toElement ∧
    ∀ m ∈ new, m.name ∉ w.document.definitionNames .macros ∧
      ∃ x vs, Synthesized x m vs ∧
        ∀ v ∈ vs, v ∈ w'.document.definitionNames .vars
  held : ∀ m ∈ w'.macros.held, m ∈ w.macros.held ∨
    IsMacroName m.name m.result ∧ ∀ v ∈ m.variables, v ∈ w'.document.definitionNames .vars

theorem definitionName?_macroDefinition (m : MacroDefinition) :
    definitionName? .macros m.toElement = some m.name := by
  simp [definitionName?, MacroDefinition.toElement, Action.Written.element, Element.attribute?,
    SectionKind.nameKey]

theorem mem_definitionNames_of_definitions {d : TransferDocument} {kind : SectionKind} {e : Element}
    {name : String} (he : e ∈ d.definitions kind) (hname : definitionName? kind e = some name) :
    name ∈ d.definitionNames kind :=
  List.mem_filterMap.2 ⟨e, he, hname⟩

namespace Enriches

/-- Nothing about macros is changed, and no variable goes away. -/
theorem of_eq (hvars : ∀ v ∈ w.document.definitionNames .vars,
      v ∈ w'.document.definitionNames .vars)
    (hprovenance : ∀ n, w'.document.provenanceOf? .macros n = w.document.provenanceOf? .macros n)
    (hdefinitions : w'.document.definitions .macros = w.document.definitions .macros)
    (hmacros : w'.macros = w.macros) : Enriches w w' where
  vars := hvars
  provenance n _ := hprovenance n
  macros := ⟨[], hdefinitions.trans (List.append_nil _).symm, nofun⟩
  held _ hm := .inl (hmacros ▸ hm)

theorem refl (w : Workspace) : Enriches w w :=
  of_eq (fun _ hv => hv) (fun _ => rfl) rfl rfl

theorem mem_macros (h : Enriches w w') {n : String}
    (hn : n ∈ w.document.definitionNames .macros) : n ∈ w'.document.definitionNames .macros := by
  obtain ⟨new, hnew, -⟩ := h.macros
  obtain ⟨e, he, hname⟩ := List.mem_filterMap.1 hn
  exact mem_definitionNames_of_definitions (hnew ▸ List.mem_append_left _ he) hname

theorem trans (h : Enriches w w') (h' : Enriches w' w'') : Enriches w w'' where
  vars v hv := h'.vars v (h.vars v hv)
  provenance n hn := (h'.provenance n (h.mem_macros hn)).trans (h.provenance n hn)
  macros := by
    obtain ⟨new, hnew, hmade⟩ := h.macros
    obtain ⟨more, hmore, hmade'⟩ := h'.macros
    refine ⟨new ++ more, by rw [hmore, hnew, List.map_append, List.append_assoc], fun m hm => ?_⟩
    rcases List.mem_append.1 hm with hm | hm
    · obtain ⟨hfresh, x, vs, hsynthesized, hvariables⟩ := hmade m hm
      exact ⟨hfresh, x, vs, hsynthesized, fun v hv => h'.vars v (hvariables v hv)⟩
    · exact (hmade' m hm).imp_left fun hfresh hn => hfresh (h.mem_macros hn)
  held m hm := by
    rcases h'.held m hm with hm | hnew
    · exact (h.held m hm).imp_right fun hnew => ⟨hnew.1, fun v hv => h'.vars v (hnew.2 v hv)⟩
    · exact .inr hnew

/-- Rules may be discarded. -/
theorem discardRules (w : Workspace) (names : List String) :
    Enriches w (w.discard .rules names) := by
  refine .of_eq (fun v hv => mem_definitionNames_discard.2 ⟨hv, nofun⟩) (fun n => ?_) ?_ rfl
  · exact (TransferDocument.provenanceOf?_removeAll n).trans (if_neg nofun)
  · show (w.document.removeAll .rules names).definitions .macros = _
    rw [TransferDocument.definitions_eq, TransferDocument.childrenOf_removeAll, if_neg nofun,
      TransferDocument.definitions_eq]

end Enriches

/-- One change that work makes enriches a workspace. -/
theorem Work.enriches (h : Work replaced w w') : Enriches w w' := by
  cases h with
  | request h hgrows =>
      obtain ⟨⟨new, hnew, hmade⟩, hheld⟩ := h.macros
      exact
        { vars := fun v hv => hgrows.mem_definitionNames hv
          provenance := fun n hn => hgrows.provenanceOf? hn
          macros := ⟨new, hnew, fun m hm => (hmade m hm).imp_right fun hmade => ⟨_, hmade⟩⟩
          held := hheld }
  | take kind name => exact .of_eq (fun _ hv => hv) (fun _ => rfl) rfl rfl
  | addRule htag hname hfresh =>
      refine .of_eq (fun v hv => (mem_definitionNames_define htag hname).2 (.inl hv))
        (fun n => ?_) ?_ rfl
      · exact (TransferDocument.provenanceOf?_addDefinition hname n).trans (if_neg nofun)
      · exact (TransferDocument.definitions_addDefinition htag).trans (if_neg nofun)
  | dropRule hname => exact .discardRules w _

/-- **Work enriches a workspace.** -/
theorem Works.enriches (h : Works replaced w w') : Enriches w w' := by
  induction h with
  | refl => exact .refl w
  | tail _ hwork ih => exact ih.trans hwork.enriches

/-! ## What is kept -/

/-- The variables of the held macros are defined. -/
def Supplied (w : Workspace) : Prop :=
  ∀ m ∈ w.macros.held, ∀ v ∈ m.variables, v ∈ w.document.definitionNames .vars

/-- The names of the held macros say which variables they set, and their variables are defined as
far as a macro of their name mentions them. -/
structure Serviced (w : Workspace) : Prop where
  named : ∀ m ∈ w.macros.held, IsMacroName m.name m.result
  mentioned : ∀ m ∈ w.macros.held, ∀ e ∈ w.document.definitions .macros,
    definitionName? .macros e = some m.name →
      ∀ v ∈ m.variables, ⟨.vars, v⟩ ∈ references e → v ∈ w.document.definitionNames .vars

/-- The macros that were generated are made from a lexicon. -/
def MacrosMade (w : Workspace) : Prop :=
  ∀ e ∈ w.document.definitions .macros, ∀ n, definitionName? .macros e = some n →
    w.document.provenanceOf? .macros n = some .generated →
      ∃ x m vs, Synthesized x m vs ∧ e = m.toElement

theorem Supplied.enriches (hw : w.Supplied) (h : Enriches w w') : w'.Supplied := by
  intro m hm v hv
  rcases h.held m hm with hold | hnew
  · exact h.vars v (hw m hold v hv)
  · exact hnew.2 v hv

/-- A macro that is made has a name of its own, so it says nothing about one that was held. -/
theorem Serviced.enriches (hw : w.Serviced) (hcoherent : w.Coherent) (h : Enriches w w') :
    w'.Serviced where
  named m hm := by
    rcases h.held m hm with hold | hnew
    · exact hw.named m hold
    · exact hnew.1
  mentioned m hm e he hname v hv hmentioned := by
    rcases h.held m hm with hold | hnew
    · obtain ⟨new, hdefinitions, hmade⟩ := h.macros
      rw [hdefinitions] at he
      rcases List.mem_append.1 he with he | he
      · exact h.vars v (hw.mentioned m hold e he hname v hv hmentioned)
      · obtain ⟨made, hmem, rfl⟩ := List.mem_map.1 he
        rw [definitionName?_macroDefinition, Option.some.injEq] at hname
        have hheld := hcoherent.mem_definitionNames_of_held hold
        rw [← hname] at hheld
        exact absurd hheld (hmade made hmem).1
    · exact hnew.2 v hv

theorem MacrosMade.enriches (hw : w.MacrosMade) (h : Enriches w w') : w'.MacrosMade := by
  intro e he n hname hgenerated
  obtain ⟨new, hdefinitions, hmade⟩ := h.macros
  rw [hdefinitions] at he
  rcases List.mem_append.1 he with he | he
  · rw [h.provenance n (mem_definitionNames_of_definitions he hname)] at hgenerated
    exact hw e he n hname hgenerated
  · obtain ⟨made, hmem, rfl⟩ := List.mem_map.1 he
    obtain ⟨-, x, vs, hsynthesized, -⟩ := hmade made hmem
    exact ⟨x, made, vs, hsynthesized, rfl⟩

/-- A macro that was made mentions the variable that it sets, so that the variable is defined as
long as the macro is held. -/
theorem Serviced.mem_definitionNames_result (hw : w.Serviced) (hcoherent : w.Coherent)
    (hmade : w.MacrosMade) {m : HeldMacro} (hm : m ∈ w.macros.held)
    (hgenerated : w.document.provenanceOf? .macros m.name = some .generated) :
    m.result ∈ w.document.definitionNames .vars := by
  obtain ⟨e, he, hname⟩ := List.mem_filterMap.1 (hcoherent.mem_definitionNames_of_held hm)
  obtain ⟨x, made, vs, hsynthesized, rfl⟩ := hmade e he _ hname hgenerated
  refine hw.mentioned m hm _ he hname _ List.mem_cons_self ?_
  rw [definitionName?_macroDefinition, Option.some.injEq] at hname
  rw [references_macroDefinition]
  exact hsynthesized.mentions_result (hname ▸ hw.named m hm)

/-! ## Workspaces that were just loaded -/

theorem supplied_ofDocument (d : TransferDocument) : (ofDocument d).Supplied := nofun

theorem serviced_ofDocument (d : TransferDocument) : (ofDocument d).Serviced := ⟨nofun, nofun⟩

theorem macrosMade_ofDocument {d : TransferDocument} (hd : d.AsLoaded) :
    (ofDocument d).MacrosMade := by
  intro e he n hname hgenerated
  rw [show (ofDocument d).document = d from rfl, hd .macros n] at hgenerated
  split at hgenerated
  · cases hgenerated
  · cases hgenerated

end Workspace

end TransferRules
