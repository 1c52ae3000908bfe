import TransferRules.Command.Program

/-!
# The command line program

The outer layer: files of the machine, its environment, and its output streams.
-/

namespace TransferRules

/-- The file error that an error of the system is. -/
def FileError.ofSystem : IO.Error → FileError
  | .noFileOrDirectory .. => .missing
  | error => .other (toString error)

/-- The text of a file of the machine. -/
def readSystemFile (path : String) : IO (Except FileError String) := do
  try
    let bytes ← IO.FS.readBinFile path
    match String.fromUTF8? bytes with
    | some text => return .ok text
    | none => return .error .notText
  catch error => return .error (.ofSystem error)

/-- Write a file of the machine. -/
def writeSystemFile (path text : String) : IO (Except FileError Unit) := do
  try
    IO.FS.writeFile path text
    return .ok ()
  catch error => return .error (.ofSystem error)

/-- Make a directory of the machine and those above it. -/
def makeSystemDirectory (path : String) : IO (Except FileError Unit) := do
  try
    IO.FS.createDirAll path
    return .ok ()
  catch error => return .error (.ofSystem error)

/-- Whether the machine has a file or directory. -/
def isOnSystem (path : String) : IO Bool := do
  try
    let _ ← IO.FS.Handle.mk path .read
    return true
  catch
    | .noFileOrDirectory .. => return false
    | _ => return true

/-- Access to the files of the machine. -/
def systemFiles : FileAccess IO where
  isPresent := isOnSystem
  read := readSystemFile
  write := writeSystemFile
  makeDirectory := makeSystemDirectory

/-- The environment of the process. -/
def systemEnvironment : IO (List (String × String)) := do
  match ← readSystemFile "/proc/self/environ" with
  | .error _ => return []
  | .ok text =>
    return (Text.fieldsOf '\x00' text).map fun entry =>
      let cs := entry.toList
      (String.ofList (cs.takeWhile (· != '=')), String.ofList ((cs.dropWhile (· != '=')).drop 1))

/-- The directory in which programs keep the settings of the user. -/
def systemUserDirectory : IO (Option String) := do
  match ← IO.getEnv "XDG_CONFIG_HOME" with
  | some directory => if directory.startsWith "/" then return some directory
  | none => pure ()
  return (← IO.getEnv "HOME").map fun home => home ++ "/.config"

end TransferRules

open TransferRules in
/-- Run the program. -/
def main (commandLine : List String) : IO UInt32 := do
  let outcome ← program systemFiles (← systemUserDirectory) (← systemEnvironment) commandLine
  (← IO.getStdout).putStr outcome.output
  (← IO.getStderr).putStr outcome.errorOutput
  return outcome.code.toUInt32
