import TransferRules.Transfer.Layout

/-!
# Failures

What ends the work: a file that cannot be read or written, a document that is no markup or has
the wrong root, a lexicon or settings that cannot be used.  Problems of single rules never end
it; they are issues, and go into the report.

## Main Definitions

* `FileError` — why a file cannot be read or written
* `Failure` — why the work ends
* `Failure.message`, `Failure.chain` — the wording, and the wording with its cause behind it
-/

namespace TransferRules

/-- Why a file cannot be read or written. -/
inductive FileError where
  | missing
  | notDirectory
  | isDirectory
  /-- The bytes of the file are no text. -/
  | notText
  | other (text : String)
  deriving Repr, DecidableEq

/-- The wording of a file error. -/
def FileError.message : FileError → String
  | .missing => "No such file or directory (os error 2)"
  | .notDirectory => "Not a directory (os error 20)"
  | .isDirectory => "Is a directory (os error 21)"
  | .notText => "stream did not contain valid UTF-8"
  | .other text => text

/-- Why the work ends. -/
inductive Failure where
  | file (path : String) (error : FileError)
  | markup (document message : String)
  /-- A text is no JSON, or not of the expected shape. -/
  | json
  | settings (message : String)
  /-- The settings have a value of the wrong type, or their file cannot be read. -/
  | unreadableSettings
  | lexicon (message : String)
  | argument (message : String)
  deriving Repr, DecidableEq

namespace Failure

/-- The wording of a failure. -/
def message : Failure → String
  | file path error => "I/O error on " ++ path ++ ": " ++ error.message
  | markup document message => "XML parse error in " ++ document ++ ": " ++ message
  | json => "JSON parsing error"
  | settings message => "Configuration error: " ++ message
  | unreadableSettings => "Failed to extract configuration"
  | lexicon message => "Linguistic database error: " ++ message
  | argument message => "Invalid argument: " ++ message

/-- The wording of a failure, with the wording of the error that caused it.  Of a text that is no
JSON it is not told what is wrong with it. -/
def chain : Failure → List String
  | file path error => [(file path error).message, error.message]
  | json => []
  | failure => [failure.message]

/-- Whether a document is at fault for what it is. -/
def isStructural : Failure → Bool
  | markup .. => true
  | _ => false

/-- The failure to load a document. -/
def ofLoadError (document : String) (error : Transfer.LoadError) : Failure :=
  .markup document error.message

end Failure

end TransferRules
