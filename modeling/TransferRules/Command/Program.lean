import TransferRules.Command.Generation
import TransferRules.Report.Rendering
import TransferRules.Settings.Reading

/-!
# The program

A command line in, an exit code and texts for the two output streams out.  Nothing is written to
a log, but the directory of a log file is made.

## Main Definitions

* `Outcome` — what a program leaves behind besides its files
* `program` — the program
-/

namespace TransferRules

/-- What a program leaves behind besides its files. -/
structure Outcome where
  code : Nat
  output : String := ""
  errorOutput : String := ""
  deriving Repr, DecidableEq

/-- The version of the program. -/
def versionLine : String := "rulegen 0.1.0\n"

/-- How the program is used. -/
def usageLine : String :=
  "Usage: rulegen [OPTIONS] --source-db <JSON> --target-db <JSON> --transfer <T1X> <SPEC>...\n"

/-- A line about every argument and option. -/
def helpText : String :=
  "Generate Apertium transfer rules from rule specifications\n\n" ++ usageLine ++
  "\nArguments:\n" ++
  "  <SPEC>...  Rule specification files, compiled in order\n" ++
  "\nOptions:\n" ++
  "      --source-db <JSON>  Source language database (JSON)\n" ++
  "      --target-db <JSON>  Target language database (JSON)\n" ++
  "  -t, --transfer <T1X>    Transfer file to update; created when missing\n" ++
  "  -c, --config <CONFIG>   Path to configuration file\n" ++
  "      --no-trim           Keep generated variables and macros nothing references\n" ++
  "      --json              Print the report as JSON\n" ++
  "  -h, --help              Print help\n" ++
  "  -V, --version           Print version\n"

/-- The wording of what is wrong with a command line. -/
def UsageError.message : UsageError → String
  | .missingRequired => "a required argument was not provided"
  | .unknownArgument => "unexpected argument found"
  | .repeated => "an argument cannot be used multiple times"
  | .invalidValue => "a value is required for an argument but none was supplied"
  | .flagWithValue => "unexpected value for a flag"
  | .askedForHelp => "help was asked for"
  | .askedForVersion => "the version was asked for"

/-- What happens without a run. -/
def UsageError.outcome : UsageError → Outcome
  | .askedForHelp => { code := 0, output := helpText }
  | .askedForVersion => { code := 0, output := versionLine }
  | error => { code := 2, errorOutput := "error: " ++ error.message ++ "\n\n" ++ usageLine }

/-- What happens after a failure. -/
def failed (message : String) : Outcome where
  code := 1
  errorOutput := "Error: " ++ message ++ "\n"

/-- What happens after a run. -/
def reported (asJson : Bool) (report : Report) : Outcome where
  code := if report.hasErrors then 1 else 0
  output := if asJson then report.toJson.pretty ++ "\n" else report.toText

/-- Make the directory of the log file. -/
def prepareLog {m : Type → Type} [Monad m] (files : FileAccess m) (settings : LoggingSettings) :
    m (Except FileError Unit) :=
  match settings.directory? with
  | none => return .ok ()
  | some directory => files.makeDirectory directory

/-- What happens if there is no place for the log file. -/
def withoutLog (error : FileError) : Outcome where
  code := 101
  errorOutput := "Error: no place for the log file: " ++ error.message ++ "\n"

/-- The program. -/
def program {m : Type → Type} [Monad m] (files : FileAccess m) (userDirectory : Option String)
    (environment : List (String × String)) (commandLine : List String) : m Outcome := do
  match Arguments.parse commandLine with
  | .error error => return error.outcome
  | .ok arguments =>
    match ← Settings.load files { path := arguments.settings, userDirectory, environment } with
    | .error failure => return failed failure.message
    | .ok settings =>
      match ← prepareLog files settings.logging with
      | .error error => return withoutLog error
      | .ok () =>
        match ← (generate files arguments settings.generator).run with
        | .error trouble => return failed trouble.message
        | .ok report => return reported arguments.jsonReport report

end TransferRules
