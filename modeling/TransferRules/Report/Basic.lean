import TransferRules.Rule.Issue

/-!
# Reports

A report collects the messages of a run in the order in which they arise.

## Main Definitions

* `Report` — the messages of a run
* `Report.note` — add a message about an issue
* `Report.summary` — how many messages there are of each severity
-/

namespace TransferRules

/-- A message. -/
structure ReportEntry where
  severity : Severity
  message : String
  deriving Repr, DecidableEq

/-- How many messages there are of each severity. -/
structure ReportSummary where
  errors : Nat
  warnings : Nat
  infos : Nat
  deriving Repr, DecidableEq

/-- A run passes if it has no error. -/
def ReportSummary.passed (s : ReportSummary) : Bool := s.errors == 0

/-- The messages of a run. -/
structure Report where
  entries : List ReportEntry := []
  deriving Repr, DecidableEq

namespace Report

/-- The report without messages. -/
def empty : Report := ⟨[]⟩

/-- Add a message. -/
def record (r : Report) (severity : Severity) (message : String) : Report :=
  ⟨r.entries ++ [⟨severity, message⟩]⟩

/-- Add the message of an issue. -/
def note (r : Report) (issue : Issue) : Report := r.record issue.severity issue.message

/-- Add the messages of some issues. -/
def noteAll (r : Report) (issues : List Issue) : Report := issues.foldl note r

/-- The messages of one severity, in order. -/
def messages (r : Report) (severity : Severity) : List String :=
  (r.entries.filter fun e => e.severity == severity).map ReportEntry.message

/-- How many messages there are of each severity. -/
def summary (r : Report) : ReportSummary where
  errors := (r.messages .error).length
  warnings := (r.messages .warning).length
  infos := (r.messages .info).length

/-- Whether there is an error. -/
def hasErrors (r : Report) : Bool := !r.summary.passed

end Report

end TransferRules
