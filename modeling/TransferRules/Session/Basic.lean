import TransferRules.Report.Basic
import TransferRules.Settings.Basic
import TransferRules.Transfer.Layout
import TransferRules.Transfer.Usage
import TransferRules.Workspace.Attribute

/-!
# Sessions

A session works on one transfer file with a pair of lexicons.  It may load a file, compiles
specifications into it, removes what is not used, and writes it; meanwhile messages gather in
its report.

## Main Definitions

* `Session` — the state of the work
* `Session.load` — go on with a file that was written before
* `Session.trim` — remove what is generated and not used
* `Session.ensureAttribute`, `Session.addAttribute`, `Session.addVariable` — single definitions

## Design Notes

Whatever fails leaves the session as it was; a function that can fail therefore returns a new
session only when it succeeds.
-/

namespace TransferRules

open TransferRules.Ordered
open TransferRules.Text
open TransferRules.Transfer

/-- The state of the work on one transfer file. -/
structure Session where
  source : Lexicon
  target : Lexicon
  settings : GeneratorSettings := {}
  report : Report := .empty
  workspace : Workspace := {}
  deriving DecidableEq

namespace Session

/-- A session on a new transfer file. -/
def start (source target : Lexicon) (settings : GeneratorSettings) : Session where
  source := source
  target := target
  settings := settings
  workspace :=
    { document :=
        if settings.doctype then .blank else { TransferDocument.blank with doctype := none } }

/-- The transfer file as it stands. -/
def document (s : Session) : TransferDocument := s.workspace.document

/-- Add a message about an issue. -/
def note (s : Session) (issue : Issue) : Session := { s with report := s.report.note issue }

/-- Add a message that is no problem. -/
def inform (s : Session) (message : String) : Session :=
  { s with report := s.report.record .info message }

/-- Go on with a transfer file that was written before.  The report is kept. -/
def load (s : Session) (d : TransferDocument) : Session := { s with workspace := .ofDocument d }

/-- Go on with the transfer file of a text. -/
def loadText (s : Session) (text : String) : Except LoadError Session :=
  (TransferDocument.parse text).map s.load

/-- Remove the generated macros and variables that are not used.  Their names are free again. -/
def trim (s : Session) : TrimSummary × Session :=
  let (summary, document) := s.document.trim
  let names := (s.workspace.names.releaseAll .macros summary.macros).releaseAll .vars
    summary.vars
  let macros := s.workspace.macros.forget summary.macros
  (summary, { s with workspace := { s.workspace with document, names, macros } })

/-- The text of the transfer file. -/
def write (s : Session) : String := s.document.write s.settings.indent

/-- Take a free name made from the identifier of `base`. -/
def availableName (s : Session) (kind : SectionKind) (base : String) : String × Session :=
  let (name, workspace) := s.workspace.allocate kind base
  (name, { s with workspace })

/-- The lexicon that knows the values of a feature. -/
def lexiconOf (s : Session) (key : FeatureKey) : Lexicon :=
  if key.isSource then s.source else s.target

/-- The name of the attribute of a feature, which is defined if need be; a feature without
values is reported. -/
def ensureAttribute (s : Session) (q : FeatureQuery) : Option String × Session :=
  match s.workspace.ensureAttribute (s.lexiconOf q.key) q with
  | .ok (name, workspace) => (some name, { s with workspace })
  | .error issue => (none, s.note issue)

/-- The name of an attribute with the given values, which is defined if there is none. -/
def addAttribute (s : Session) (base : String) (values : StringSet) : String × Session :=
  let (name, workspace) := s.workspace.addAttribute base values
  (name, { s with workspace })

/-- The name of the variable with the identifier of `name`, which is defined unless it is. -/
def addVariable (s : Session) (name : String) (comment? : Option String) : String × Session :=
  let name := identifier name
  (name, { s with workspace := s.workspace.ensureVariable name comment? })

/-- The macro of the disjoint set that was last in use, as long as it is defined. -/
def disjointMacro? (s : Session) : Option MacroHandle := s.workspace.macros.disjoint.map Prod.snd

/-- The names of the rules in document order. -/
def ruleNames (s : Session) : List String := s.document.definitionNames .rules

end Session

end TransferRules
