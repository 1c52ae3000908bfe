import TransferRules.Json.Writing
import TransferRules.Report.Basic

/-!
# Rendered reports

A report is shown as text, the most serious messages first, or as JSON in the order of the
messages.

## Main Definitions

* `Report.toText` — the report for a reader
* `Report.toJson` — the report for a tool
-/

namespace TransferRules

/-- The name of a severity in JSON. -/
def Severity.name : Severity → String
  | .error => "Error"
  | .warning => "Warning"
  | .info => "Info"

/-- A message as a record. -/
def ReportEntry.toJson (e : ReportEntry) : Json :=
  .object [("message", .string e.message), ("severity", .string e.severity.name)]

/-- A summary as a record. -/
def ReportSummary.toJson (s : ReportSummary) : Json :=
  .object [("errors", .natural s.errors), ("infos", .natural s.infos),
    ("passed", .boolean s.passed), ("warnings", .natural s.warnings)]

namespace Report

/-- The report for a tool. -/
def toJson (r : Report) : Json :=
  .object [("entries", .ofList ReportEntry.toJson r.entries), ("summary", r.summary.toJson)]

/-- The lines of all messages of one severity. -/
def severityLines (r : Report) (severity : Severity) : String :=
  String.join ((r.messages severity).map fun message =>
    "[" ++ severity.mark ++ "] " ++ message ++ "\n")

/-- The report for a reader. -/
def toText (r : Report) : String :=
  "=== Rule Generation Report ===\n\n" ++
    r.severityLines .error ++ r.severityLines .warning ++ r.severityLines .info ++
    (if r.entries.isEmpty then "" else "\n") ++
    "--- Summary ---\n" ++
    "  Errors:   " ++ toString r.summary.errors ++ "\n" ++
    "  Warnings: " ++ toString r.summary.warnings ++ "\n" ++
    "  Info:     " ++ toString r.summary.infos ++ "\n\n" ++
    (if r.summary.passed then "Result: PASSED\n" else "Result: FAILED\n")

end Report

end TransferRules
