import TransferRules.Files.Access
import TransferRules.Text.Fields

/-!
# Files in memory

A store holds the files below one directory, the working directory.  A directory is there as
long as it holds a file, or if it was added by itself.

## Main Definitions

* `FileStore` — the files
* `FileStore.resolve` — where a path leads
* `FileStore.read`, `FileStore.write`, `FileStore.makeDirectory` — the operations

## Design Notes

A place is a list of the names on the way to it from the working directory.  A way out of the
working directory starts with two points for every step upwards, and one from the root of all
files starts with a slash.  So the directories above are places of their own, in which nothing
is known that was not written there.
-/

namespace TransferRules

/-- Files by their places, and directories that are there without a file. -/
structure FileStore where
  files : List (List String × String) := []
  directories : List (List String) := []
  deriving Repr, DecidableEq

namespace FileStore

/-- The text of the file at a place. -/
def text? (s : FileStore) (place : List String) : Option String :=
  (s.files.find? fun file => file.1 == place).map Prod.snd

/-- Whether a place is the working directory or one above it. -/
def isAbove (place : List String) : Bool := place.all (· == "..") || place == ["/"]

/-- Whether a place is a directory. -/
def isDirectory (s : FileStore) (place : List String) : Bool :=
  isAbove place || s.directories.any place.isPrefixOf ||
    s.files.any fun file => place.isPrefixOf file.1 && file.1 != place

/-- Where a part of a path leads from a place. -/
def step (place : List String) (part : String) : List String :=
  if part.isEmpty || part == "." then place
  else if part == ".." then
    if place == ["/"] then place
    else if isAbove place then place ++ [part]
    else place.dropLast
  else place ++ [part]

/-- Go on from a place with a part of a path.  The place has to be a directory. -/
def enter (s : FileStore) (place : List String) (part : String) :
    Except FileError (List String) :=
  if s.isDirectory place then .ok (step place part)
  else if (s.text? place).isSome then .error .notDirectory
  else .error .missing

/-- The place where a path starts. -/
def origin (path : String) : List String :=
  match path.toList with
  | '/' :: _ => ["/"]
  | _ => []

/-- Where a path leads: everything before its last part is there. -/
def resolve (s : FileStore) (path : String) : Except FileError (List String) :=
  if path.isEmpty then .error .missing
  else (Text.fieldsOf '/' path).foldlM s.enter (origin path)

/-- Whether there is a file or directory. -/
def isPresent (s : FileStore) (path : String) : Bool :=
  match s.resolve path with
  | .ok place => s.isDirectory place || (s.text? place).isSome
  | .error _ => false

/-- The text of a file. -/
def read (s : FileStore) (path : String) : Except FileError String := do
  let place ← s.resolve path
  match s.text? place with
  | some text => .ok text
  | none => .error (if s.isDirectory place then .isDirectory else .missing)

/-- Put a file at a place, instead of one that is there. -/
def put (s : FileStore) (place : List String) (text : String) : FileStore :=
  { s with files := (s.files.filter fun file => file.1 != place) ++ [(place, text)] }

/-- Write a file. -/
def write (s : FileStore) (path text : String) : Except FileError FileStore := do
  let place ← s.resolve path
  if s.isDirectory place then .error .isDirectory else .ok (s.put place text)

/-- The place of a name, whatever is there. -/
def placeOf (name : String) : List String := (Text.fieldsOf '/' name).foldl step []

/-- The store of some files, by their names. -/
def ofList (files : List (String × String)) : FileStore :=
  files.foldl (fun s (name, text) => s.put (placeOf name) text) {}

/-- Add a directory, which may be empty. -/
def addDirectory (s : FileStore) (name : String) : FileStore :=
  { s with directories := placeOf name :: s.directories }

/-- Go on from a place with a part of a path, and add the directory there. -/
def enterNew (here : FileStore × List String) (part : String) :
    Except FileError (FileStore × List String) :=
  let (s, place) := here
  let next := step place part
  if (s.text? next).isSome then .error .notDirectory
  else .ok ({ s with directories := next :: s.directories }, next)

/-- Make a directory and those above it, unless there is a file in the way. -/
def makeDirectory (s : FileStore) (path : String) : Except FileError FileStore := do
  let (s, _) ← (Text.fieldsOf '/' path).foldlM enterNew (s, origin path)
  return s

/-- Access to a store. -/
def access : FileAccess (StateM FileStore) where
  isPresent path := do return (← get).isPresent path
  read path := do return (← get).read path
  write path text := do
    match (← get).write path text with
    | .ok s => set s; return .ok ()
    | .error error => return .error error
  makeDirectory path := do
    match (← get).makeDirectory path with
    | .ok s => set s; return .ok ()
    | .error error => return .error error

/-- What is written is read. -/
theorem read_put {s : FileStore} {place : List String} {text : String} :
    (s.put place text).text? place = some text := by
  have h : (s.files.filter fun file => file.1 != place).find? (fun file => file.1 == place) =
      none := by
    simp [List.find?_eq_none]
  simp [text?, put, List.find?_append, h]

end FileStore

end TransferRules
