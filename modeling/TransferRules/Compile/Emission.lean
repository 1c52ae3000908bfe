import TransferRules.Compile.Occurrence
import TransferRules.Report.Basic
import TransferRules.Workspace.Attribute
import TransferRules.Workspace.Category
import TransferRules.Workspace.Macro

/-!
# Emission

Compiling a rule collects statements while definitions are added to the workspace and messages
to the report.  Variables are global in a transfer file, so a rule claims every variable that
it uses for a purpose of its own; a name that the rule has claimed gets the position of the
word added, and a number if need be.

## Main Definitions

* `Lexicons` — the two lexicons and the disjoint set in effect
* `Emission`, `Emit` — the state of compiling a rule, and computations on it
* `claim` — a variable that the rule does not use yet
-/

namespace TransferRules.Compile

open TransferRules.Action
open TransferRules.Transfer

/-- What is known about the two languages. -/
structure Lexicons where
  source : Lexicon
  target : Lexicon
  disjoint : Option DisjointSet := none

/-- The state of compiling a rule. -/
structure Emission where
  workspace : Workspace
  report : Report
  /-- The variables that the rule uses. -/
  claimed : List String := []
  statements : List Statement := []

/-- A computation on the state of compiling a rule. -/
abbrev Emit := StateM Emission

/-- Add a statement. -/
def emit (s : Statement) : Emit Unit :=
  modify fun e => { e with statements := e.statements ++ [s] }

/-- Report an issue. -/
def report (issue : Issue) : Emit Unit :=
  modify fun e => { e with report := e.report.note issue }

/-- Change the workspace. -/
def modifyWorkspace (f : Workspace → Workspace) : Emit Unit :=
  modify fun e => { e with workspace := f e.workspace }

/-- Define a variable unless it is defined. -/
def defineVariable (name : String) : Emit Unit :=
  modifyWorkspace fun w => w.ensureVariable name none

/-- Do something with the workspace that may be impossible; then nothing changes. -/
def tryWorkspace {α : Type} (f : Workspace → Except Issue (α × Workspace)) :
    Emit (Except Issue α) :=
  modifyGet fun e =>
    match f e.workspace with
    | .ok (a, workspace) => (.ok a, { e with workspace })
    | .error issue => (.error issue, e)

/-- The `n`-th name to try for a variable whose own name is taken. -/
def variableCandidate (base : String) (position : Nat) : Nat → String
  | 0 => base ++ "_" ++ toString position
  | n + 1 => base ++ "_" ++ toString position ++ "_" ++ toString (n + 1)

/-- A name for a variable about the word at a position that the rule does not use. -/
def unclaimed (base : String) (position : Nat) (claimed : List String) : String :=
  if base ∈ claimed then firstFree (variableCandidate base position) 0 claimed else base

/-- Claim a variable that the rule does not use. -/
def claim (base : String) (position : Nat) : Emit String :=
  modifyGet fun e =>
    let name := unclaimed base position e.claimed
    (name, { e with claimed := name :: e.claimed })

/-- Claim just this variable; the answer is whether the rule did not use it. -/
def claimExactly (name : String) : Emit Bool :=
  modifyGet fun e =>
    if name ∈ e.claimed then (false, e) else (true, { e with claimed := name :: e.claimed })

end TransferRules.Compile
