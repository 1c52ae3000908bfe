import TransferRules.Command.Arguments
import TransferRules.Files.Access
import TransferRules.Lexicon.Exchange
import TransferRules.Session.Processing
import TransferRules.Specification.Reading

/-!
# Generation

One run of the program: load the lexicons and the transfer file, process the specifications in
order, remove what is not used, and write the transfer file.  Nothing is written unless
everything before has worked.

## Main Definitions

* `Trouble` — a failure, and what was being done
* `generate` — the run, which yields its report
-/

namespace TransferRules

open TransferRules.Transfer

/-- A failure, and what was being done when it arose. -/
structure Trouble where
  context : String
  failure : Failure
  deriving Repr, DecidableEq

/-- The wording of a trouble with all causes. -/
def Trouble.message (t : Trouble) : String :=
  String.intercalate ": " (t.context :: t.failure.chain)

/-- The lexicon in a file's text. -/
def lexiconIn (path : String) (text : String) : Except Failure Lexicon :=
  match Lexicon.load text with
  | .ok x => .ok x
  | .error .notJson => .error .json
  | .error (.fault fault) => .error (.lexicon (path ++ ": " ++ fault.message))

/-- The transfer file in a text. -/
def transferIn (path : String) (text : String) : Except Failure TransferDocument :=
  (TransferDocument.parse text).mapError (Failure.ofLoadError path)

/-- The specification in a text. -/
def specificationIn (path : String) (text : String) : Except Failure Specification :=
  (Specification.parse text).mapError (Failure.ofLoadError path)

section

variable {m : Type → Type} [Monad m]

/-- What a reader makes of a file. -/
def loadFile {α : Type} (files : FileAccess m) (reader : String → String → Except Failure α)
    (path : String) : m (Except Failure α) := do
  match ← files.read path with
  | .ok text => return reader path text
  | .error error => return .error (.file path error)

/-- Do something in a context. -/
def inContext {α : Type} (context : String) (action : m (Except Failure α)) :
    ExceptT Trouble m α :=
  ExceptT.mk do return (← action).mapError (Trouble.mk context)

/-- Process the specifications in some files, one after another. -/
def processFiles (files : FileAccess m) (s : Session) : List String → ExceptT Trouble m Session
  | [] => return s
  | path :: paths => do
    let x ← inContext ("compiling " ++ path) (loadFile files specificationIn path)
    processFiles files (s.process x path).2 paths

/-- The session of a run before its specifications: on the transfer file if there is one, or
else on a new one. -/
def openSession (files : FileAccess m) (arguments : Arguments) (settings : GeneratorSettings) :
    ExceptT Trouble m Session := do
  let source ← inContext ("loading source database " ++ arguments.sourceLexicon)
    (loadFile files lexiconIn arguments.sourceLexicon)
  let target ← inContext ("loading target database " ++ arguments.targetLexicon)
    (loadFile files lexiconIn arguments.targetLexicon)
  let s := Session.start source target settings
  if ← (ExceptT.lift (files.isPresent arguments.transfer) : ExceptT Trouble m Bool) then
    let d ← inContext ("loading transfer file " ++ arguments.transfer)
      (loadFile files transferIn arguments.transfer)
    return s.load d
  else return s

/-- Write the transfer file of a session. -/
def writeTransfer (files : FileAccess m) (s : Session) (path : String) : m (Except Failure Unit) :=
  do return (← files.write path s.write).mapError (Failure.file path)

/-- A run; its report if nothing fails. -/
def generate (files : FileAccess m) (arguments : Arguments) (settings : GeneratorSettings) :
    ExceptT Trouble m Report := do
  let s ← openSession files arguments settings
  let s ← processFiles files s arguments.specifications
  let s := if arguments.keepUnused then s else s.trim.2
  inContext ("writing transfer file " ++ arguments.transfer)
    (writeTransfer files s arguments.transfer)
  return s.report

end

end TransferRules
