import TransferRules.Compile.Rule
import TransferRules.Session.Basic
import TransferRules.Specification.Expansion

/-!
# Processing a specification

The rules of a specification are compiled one by one into the transfer file of a session.
What is wrong with a rule goes into the report and skips only this rule.

## Main Definitions

* `Session.compileRule` — add the compiled form of a rule
* `Session.replaceRules` — remove the rules that are about to be compiled anew
* `Session.process` — everything that a specification asks for
-/

namespace TransferRules

open TransferRules.Compile
open TransferRules.Text
open TransferRules.Transfer

namespace Session

/-- What is known about the two languages while a specification is processed. -/
def lexicons (s : Session) (disjoint : Option DisjointSet) : Lexicons :=
  { source := s.source, target := s.target, disjoint }

/-- Compile a rule whose providers are resolved, and add it under a free name. -/
def addCompiled (s : Session) (disjoint : Option DisjointSet) (rule : Rule) (r : Resolution) :
    Session :=
  let (compiled, e) := (compile (s.lexicons disjoint) rule r).run
    { workspace := s.workspace, report := s.report }
  let (name, w) := e.workspace.allocate .rules rule.name
  { s with
    report := e.report
    workspace := { w with document := w.document.addDefinition .rules (compiled.toElement name) } }

/-- Compile a rule; whether this was possible, and the session after it. -/
def compileRule (s : Session) (disjoint : Option DisjointSet) (rule : Rule) : Bool × Session :=
  match rule.resolve with
  | .ok r => (true, s.addCompiled disjoint rule r)
  | .error issue => (false, s.note issue)

/-- Compile some rules; how many could be, and the session after them. -/
def compileRules (s : Session) (disjoint : Option DisjointSet) : List Rule → Nat × Session
  | [] => (0, s)
  | rule :: rules =>
    let (done, s) := s.compileRule disjoint rule
    let (count, s) := s.compileRules disjoint rules
    (if done then count + 1 else count, s)

/-- Remove the rules of a name, if there are any, and free the name. -/
def replaceRule (s : Session) (name : String) : Session :=
  if s.document.countNamed .rules name = 0 then s
  else
    let workspace :=
      { s.workspace with
        document := s.document.removeDefinition .rules name
        names := s.workspace.names.release .rules name }
    { s with workspace }.inform ("Replacing existing rule '" ++ name ++ "'")

/-- Remove the rules that have the names of some rules about to be compiled. -/
def replaceRules (s : Session) (rules : List Rule) : Session :=
  rules.foldl (fun s rule => s.replaceRule (identifier rule.name)) s

/-- Compile the rules of a specification, and report what is wrong with it; `document` names it
in the report.  The result counts the rules that were added. -/
def process (s : Session) (x : Specification) (document : String) : Nat × Session :=
  let rules := x.expansions s.settings
  let s := { s with report := s.report.noteAll (x.findings s.settings) }
  let s := if x.overwriteRules then s.replaceRules rules else s
  let (count, s) := s.compileRules x.disjointSet? rules
  (count, s.inform (document ++ ": " ++ toString count ++ " rule(s) generated"))

end Session

end TransferRules
