import TransferRules.Text.Fields

/-!
# Command line arguments

Options have long names, some also a letter.  The value of an option is the next argument, or
it is attached: behind an equals sign, or directly behind a letter.  Letters of flags may share
one argument.  After two dashes every argument is a specification.

## Main Definitions

* `Arguments` — what the command line asks for
* `UsageError` — what is wrong with a command line, or that it asks for something else
* `Arguments.parse` — read a command line

## Design Notes

An option that is waiting for its value, and the specifications read last, are checked only
when the next argument shows that they are complete.  So of several errors the one is reported
that is found first in this order; only an unknown argument, or a flag with a value, goes before
the check of what is waiting.
-/

namespace TransferRules

/-- What is wrong with a command line, or that it asks for help or the version instead. -/
inductive UsageError where
  | missingRequired
  | unknownArgument
  | repeated
  | invalidValue
  | flagWithValue
  | askedForHelp
  | askedForVersion
  deriving Repr, DecidableEq

/-- What the command line asks for. -/
structure Arguments where
  sourceLexicon : String
  targetLexicon : String
  transfer : String
  settings : Option String := none
  keepUnused : Bool := false
  jsonReport : Bool := false
  specifications : List String
  deriving Repr, DecidableEq

/-- The options with a value. -/
inductive ValueOption where
  | sourceLexicon
  | targetLexicon
  | transfer
  | settings
  deriving Repr, DecidableEq

/-- The options without a value. -/
inductive Flag where
  | keepUnused
  | jsonReport
  | help
  | version
  deriving Repr, DecidableEq

/-- An option. -/
inductive CommandOption where
  | valued (option : ValueOption)
  | flag (flag : Flag)
  deriving Repr, DecidableEq

namespace CommandOption

/-- The option with a long name. -/
def ofName? : String → Option CommandOption
  | "source-db" => some (valued .sourceLexicon)
  | "target-db" => some (valued .targetLexicon)
  | "transfer" => some (valued .transfer)
  | "config" => some (valued .settings)
  | "no-trim" => some (flag .keepUnused)
  | "json" => some (flag .jsonReport)
  | "help" => some (flag .help)
  | "version" => some (flag .version)
  | _ => none

/-- The option with a letter. -/
def ofLetter? : Char → Option CommandOption
  | 't' => some (valued .transfer)
  | 'c' => some (valued .settings)
  | 'h' => some (flag .help)
  | 'V' => some (flag .version)
  | _ => none

end CommandOption

namespace Arguments

/-- What is read but not checked yet: nothing, an option with its value if that was given, or
some specifications. -/
inductive Waiting where
  | nothing
  | valued (option : ValueOption) (value : Option String)
  | specifications (paths : List String)
  deriving Repr, DecidableEq

/-- How far a command line has been read. -/
structure Progress where
  values : List (ValueOption × String) := []
  flags : List Flag := []
  specifications : List String := []
  waiting : Waiting := .nothing
  /-- Whether every further argument is a specification. -/
  optionsEnded : Bool := false
  deriving Repr, DecidableEq

namespace Progress

/-- The value of an option. -/
def value? (p : Progress) (option : ValueOption) : Option String :=
  (p.values.find? fun entry => entry.1 == option).map Prod.snd

/-- Set an option, which may not be set yet, to a value that may not be empty. -/
def setValue (p : Progress) (option : ValueOption) (value : String) :
    Except UsageError Progress :=
  if (p.value? option).isSome then .error .repeated
  else if value.isEmpty then .error .invalidValue
  else .ok { p with values := p.values ++ [(option, value)] }

/-- Check what is waiting. -/
def settle (p : Progress) : Except UsageError Progress :=
  let settled := { p with waiting := .nothing }
  match p.waiting with
  | .nothing => .ok settled
  | .valued _ none => .error .invalidValue
  | .valued option (some value) => settled.setValue option value
  | .specifications paths =>
    if paths.contains "" then .error .invalidValue
    else .ok { settled with specifications := p.specifications ++ paths }

/-- Set a flag, which may not be set yet. -/
def setFlag (p : Progress) (flag : Flag) : Except UsageError Progress := do
  let p ← p.settle
  match flag with
  | .help => .error .askedForHelp
  | .version => .error .askedForVersion
  | flag => if flag ∈ p.flags then .error .repeated else .ok { p with flags := p.flags ++ [flag] }

/-- Read an option with a value, attached or to come. -/
def readValued (p : Progress) (option : ValueOption) (attached : Option String) :
    Except UsageError Progress := do
  let p ← p.settle
  match attached with
  | some value => p.setValue option value
  | none => return { p with waiting := .valued option none }

/-- Read an argument behind its two dashes. -/
def readLong (p : Progress) (name : String) (attached : Option String) :
    Except UsageError Progress :=
  match CommandOption.ofName? name with
  | none => .error .unknownArgument
  | some (.valued option) => p.readValued option attached
  | some (.flag flag) =>
    match attached with
    | some _ => .error .flagWithValue
    | none => p.setFlag flag

/-- The value directly behind a letter; an equals sign before it is no part of it. -/
def attachedValue : List Char → Option String
  | [] => none
  | '=' :: cs => some (String.ofList cs)
  | cs => some (String.ofList cs)

/-- Read the letters behind one dash. -/
def readLetters (p : Progress) : List Char → Except UsageError Progress
  | [] => .ok p
  | c :: cs =>
    match CommandOption.ofLetter? c with
    | none => .error .unknownArgument
    | some (.valued option) => p.readValued option (attachedValue cs)
    | some (.flag flag) =>
      match p.setFlag flag with
      | .ok p => p.readLetters cs
      | .error error => .error error

/-- Read an argument that is no option: a value that is waited for, or a specification. -/
def readPlain (p : Progress) (argument : String) : Except UsageError Progress :=
  match p.waiting, p.optionsEnded with
  | .valued option none, false => .ok { p with waiting := .valued option (some argument) }
  | .specifications paths, _ => .ok { p with waiting := .specifications (paths ++ [argument]) }
  | _, _ => do
    let p ← p.settle
    return { p with waiting := .specifications [argument] }

/-- The name of a long option, and the value attached to it. -/
def splitLong (cs : List Char) : String × Option String :=
  (String.ofList (cs.takeWhile (· != '=')),
    match cs.dropWhile (· != '=') with
    | [] => none
    | _ :: value => some (String.ofList value))

/-- Read an argument. -/
def read (p : Progress) (argument : String) : Except UsageError Progress :=
  if p.optionsEnded then p.readPlain argument
  else
    match argument.toList with
    | ['-', '-'] => .ok { p with optionsEnded := true }
    | '-' :: '-' :: cs => let (name, attached) := splitLong cs; p.readLong name attached
    | '-' :: c :: cs => p.readLetters (c :: cs)
    | _ => p.readPlain argument

/-- What is asked for, if everything that is required was given. -/
def finish (p : Progress) : Except UsageError Arguments := do
  let p ← p.settle
  match p.value? .sourceLexicon, p.value? .targetLexicon, p.value? .transfer, p.specifications with
  | some sourceLexicon, some targetLexicon, some transfer, specification :: more =>
    return {
      sourceLexicon
      targetLexicon
      transfer
      settings := p.value? .settings
      keepUnused := decide (Flag.keepUnused ∈ p.flags)
      jsonReport := decide (Flag.jsonReport ∈ p.flags)
      specifications := specification :: more }
  | _, _, _, _ => .error .missingRequired

end Progress

/-- Read a command line. -/
def parse (arguments : List String) : Except UsageError Arguments := do
  let p ← arguments.foldlM Progress.read {}
  p.finish

end Arguments

end TransferRules
