import Mathlib.Logic.Function.Basic
import TransferRules.Proofs.Action.Table

/-!
# Macros as functions of the variables

A macro is one choice among steps, and all that a step does is to assign.  So what a macro does can
be said without a run: from the contents of the variables before a call it makes those after it.
Like what tables do, this is said for any way of reading tags; for the engine it is what a call
does.

## Main Definitions

* `Step.result`, `MacroDefinition.result` — what a step, or a macro, makes of the variables
* `TransferDocument.RunsAs` — what the macro does that stands under a name

## Main Statements

* `TransferDocument.RunsAs.call` — for the engine this is what a call does
-/

namespace TransferRules

open TransferRules.Action
open TransferRules.Markup
open TransferRules.Transfer

namespace Action

/-- The contents of the variables after a step. -/
def Step.result (r : Reading) (contents : Contents) : Step → Contents
  | assign assignment => assignment.result r contents
  | choose choice => choice.result r contents

/-- The contents of the variables after a macro. -/
def MacroDefinition.result (r : Reading) (contents : Contents) (m : MacroDefinition) : Contents :=
  match (m.body.branches.find? fun branch => branch.1.isMet r contents).map Prod.snd <|>
      m.body.otherwise with
  | some step => step.result r contents
  | none => contents

variable {s : Scene}

/-- The engine executes a step by its reading. -/
theorem Step.run_engine (step : Step) (m : Machine) :
    step.run s m = { m with contents := step.result (.engine s) m.contents } := by
  cases step with
  | assign a =>
      show m.assign a.target (a.value.eval s m.contents) = _
      rw [← Value.read_engine]
      rfl
  | choose choice => exact choice.run_engine m

/-- And so it does with the body of a macro. -/
theorem MacroDefinition.run_engine (definition : MacroDefinition) (m : Machine) :
    definition.body.run s (fun step m => Step.run s m step) m =
      { m with contents := definition.result (.engine s) m.contents } := by
  unfold Choice.run Choice.taken? result
  simp only [Test.isMet_engine]
  cases (definition.body.branches.find? fun branch => branch.1.holds s m.contents).map Prod.snd <|>
      definition.body.otherwise with
  | none => rfl
  | some step => exact step.run_engine m

end Action

namespace Transfer.TransferDocument

/-- Under a name stands a macro that makes of the variables what is said, for whatever it is
called. -/
def RunsAs (d : TransferDocument) (name : String) (f : Reading → Contents → Contents) : Prop :=
  ∃ m : MacroDefinition, d.definition? .macros name = some m.toElement ∧
    ∀ r contents, m.result r contents = f r contents

variable {d : TransferDocument} {phrase : Matched} {name : String}

/-- A macro that stands in a document is called. -/
theorem call_macroDefinition {definition : MacroDefinition}
    (h : d.definition? .macros name = some definition.toElement) (depth : Nat)
    (positions : List String) (m : Machine) :
    d.call phrase (depth + 1) name positions m =
      { m with
        contents := definition.result (.engine ⟨phrase, parameter positions⟩) m.contents } := by
  have hchildren : definition.toElement.children =
      [(definition.body.toElement Step.toElement).toNode] := rfl
  rw [call, h]
  simp only [hchildren]
  exact (Scene.exec_choice (fun step m => Scene.exec_step step) _).trans
    (definition.run_engine m)

/-- **A call** makes of the variables what the macro does under the name, and puts out nothing. -/
theorem RunsAs.call {f : Reading → Contents → Contents} (h : d.RunsAs name f) (depth : Nat)
    (positions : List String) (m : Machine) :
    d.call phrase (depth + 1) name positions m =
      { m with contents := f (.engine ⟨phrase, parameter positions⟩) m.contents } := by
  obtain ⟨definition, hdefinition, hresult⟩ := h
  rw [call_macroDefinition hdefinition, hresult]

end Transfer.TransferDocument

end TransferRules
