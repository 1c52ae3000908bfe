import TransferRules.Proofs.Session.Runs
import TransferRules.Proofs.Transfer.Trim

/-!
# Trimming a session

The document of every session that was started and run is well named, so what has been proved
about trimming a document holds for it.  The tables follow the document: the names of what was
removed are free again, and a second trim leaves the whole session as it is.

## Main Statements

* `Session.wellNamed_run` — the documents of sessions are well named
* `Session.trim_exact` — a trim is exact, breaks no reference, and is done after one time
-/

namespace TransferRules

open TransferRules.Transfer

theorem MacroTable.forget_nil (t : MacroTable) : t.forget [] = t := by
  have hlemmaMacros : t.lemmaMacros.filter
      (fun entry => !([] : List String).contains entry.2.name) = t.lemmaMacros :=
    List.filter_eq_self.2 fun _ _ => rfl
  have hdisjoint : t.disjoint.filter
      (fun entry => !([] : List String).contains entry.2.name) = t.disjoint := by
    cases t.disjoint <;> rfl
  unfold MacroTable.forget
  rw [hlemmaMacros, hdisjoint]

namespace Session

variable {s : Session}

/-- The documents of sessions are well named. -/
theorem wellNamed_run (source target : Lexicon) (settings : GeneratorSettings)
    (events : List Event) :
    ((start source target settings).run events).document.WellNamed := by
  have honce : GeneratedOnce ((start source target settings).run events).workspace.document := by
    refine run_invariant (P := fun w => GeneratedOnce w.document) ?_ ?_ _ _ _ _
    · intro d hd kind name hgenerated
      rw [show (Workspace.ofDocument d).document = d from rfl, hd kind name] at hgenerated
      split at hgenerated
      · cases hgenerated
      · cases hgenerated
    · exact fun w w' replaced _ hw hchanges => hw.edits hchanges.edits
  exact ⟨(coherent_run source target settings events).provenance, honce⟩

/-- If nothing is unused, a trim leaves the session as it is. -/
theorem trim_of_unused (h : s.document.unused = ⟨[], []⟩) : s.trim = (⟨[], []⟩, s) := by
  unfold trim
  rw [TransferDocument.trim_of_unused h]
  simp only [MacroTable.forget_nil]
  rfl

/-- **A trim is exact.** -/
theorem trim_exact (source target : Lexicon) (settings : GeneratorSettings)
    (events : List Event) :
    let s := (start source target settings).run events
    let d := s.document
    let t := s.trim.2.document
    (∀ name, name ∈ s.trim.1.macros ↔
      d.provenanceOf? .macros name = some .generated ∧ ¬ d.MacroUsed name) ∧
    (∀ name, name ∈ s.trim.1.vars ↔
      d.provenanceOf? .vars name = some .generated ∧ ¬ d.VariableUsed name) ∧
    TransferDocument.IsWithout s.trim.1.names d t ∧
    (∀ e, (e ∈ t.definitions .rules ∨
        e ∈ t.definitions .macros ∧ (definitionName? .macros e).isSome = true) →
      (∀ name, ⟨.macros, name⟩ ∈ references e → name ∈ d.definitionNames .macros →
        name ∈ t.definitionNames .macros) ∧
      (∀ name, ⟨.vars, name⟩ ∈ references e → name ∈ d.definitionNames .vars →
        name ∈ t.definitionNames .vars)) ∧
    s.trim.2.trim = (⟨[], []⟩, s.trim.2) := by
  intro s d t
  have hd : d.WellNamed := wellNamed_run source target settings events
  refine ⟨fun name => TransferDocument.mem_unused_macros_iff hd,
    fun name => TransferDocument.mem_unused_vars_iff hd, TransferDocument.isWithout_trim hd,
    fun e he => ?_, ?_⟩
  · have huser := TransferDocument.isUser_of_mem_trim hd he
    refine ⟨fun name hcall hdefined => ?_, fun name hmentioned hdefined => ?_⟩
    · exact TransferDocument.mem_definitionNames_trim_of_used hd
        (.inl ⟨rfl, huser.macroUsed hcall⟩) hdefined
    · exact TransferDocument.mem_definitionNames_trim_of_used hd
        (.inr ⟨rfl, e, huser, hmentioned⟩) hdefined
  · exact trim_of_unused (TransferDocument.unused_trim hd)

end Session

end TransferRules
