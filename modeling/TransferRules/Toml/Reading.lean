import TransferRules.Toml.Assembly
import TransferRules.Toml.Scalar
import TransferRules.Toml.Wrapping

/-!
# Reading settings files

A settings file is a list of lines: entries, and headers of tables.  The lines are read first,
and then put together.

## Main Definitions

* `Statement` — an entry or a header
* `statements?` — the statements of a text
* `Toml.parse?` — the table of a text

## Design Notes

Every step of the reader consumes a character or moves on from a list to its first item, so
twice the length of the text bounds the depth of the recursion.  How deep values are nested has
a bound of its own, `depthBound`, which is part of what a settings file may be.
-/

namespace TransferRules.Toml

/-- Drop spaces and tabs. -/
def skipBlanks (cs : List Char) : List Char := cs.dropWhile fun c => c == ' ' || c == '\t'

/-- Drop blanks, comments and line breaks; `comment` is set inside a comment. -/
def skipLayout (comment : Bool) : List Char → List Char
  | [] => []
  | '\n' :: rest => skipLayout false rest
  | '\r' :: '\n' :: rest => skipLayout false rest
  | c :: rest =>
    if comment then if isPlain c then skipLayout true rest else c :: rest
    else if c == ' ' || c == '\t' then skipLayout false rest
    else if c == '#' then skipLayout true rest
    else c :: rest

/-- The text behind the end of a line, before which there may be blanks and a comment. -/
def afterLine? (cs : List Char) : Option (List Char) :=
  let rest :=
    match skipBlanks cs with
    | '#' :: comment => comment.dropWhile isPlain
    | rest => rest
  match rest with
  | [] => some []
  | '\n' :: rest => some rest
  | '\r' :: '\n' :: rest => some rest
  | _ => none

/-- Whether a character may stand in a key without quotes. -/
def isBareKey (c : Char) : Bool := c.isAlphanum || c == '_' || c == '-'

/-- One part of a key, and the rest. -/
def simpleKey? (cs : List Char) : Option (String × List Char) :=
  match cs with
  | '"' :: rest => (basicString? rest).map fun (key, rest) => (String.ofList key, rest)
  | '\'' :: rest => (literalString? rest).map fun (key, rest) => (String.ofList key, rest)
  | _ =>
    match cs.takeWhile isBareKey with
    | [] => none
    | key => some (String.ofList key, cs.dropWhile isBareKey)

/-- The parts of a dotted key, the last one apart from the path to it, and the rest.  Blanks may
stand around the dots. -/
def keyParts? : Nat → List Char → Option (List String × String × List Char)
  | 0, _ => none
  | fuel + 1, cs => do
    let (part, rest) ← simpleKey? (skipBlanks cs)
    match skipBlanks rest with
    | '.' :: rest =>
      let (path, key, rest) ← keyParts? fuel rest
      return (part :: path, key, rest)
    | rest => return ([], part, rest)

/-- How deep arrays and inline tables may be nested, and how many parts a key may have. -/
def depthBound : Nat := 79

/-- A dotted key of no more parts than are allowed, and the rest. -/
def key? (fuel : Nat) (cs : List Char) : Option (List String × String × List Char) :=
  (keyParts? fuel cs).filter fun (path, _) => path.length < depthBound

mutual

/-- A value and the rest; `depth` more arrays and inline tables may be nested in each other. -/
def value? : Nat → Nat → List Char → Option (Toml × List Char)
  | 0, _, _ => none
  | fuel + 1, depth, cs =>
    match cs, depth with
    | '[' :: _, 0 => none
    | '\x7b' :: _, 0 => none
    | '[' :: rest, depth + 1 =>
      (items? fuel depth rest).map fun (items, rest) => (array items, rest)
    | '\x7b' :: rest, depth + 1 =>
      match skipBlanks rest with
      | '\x7d' :: rest => some (table [], rest)
      | rest => do
        let (entries, rest) ← entries? fuel depth rest
        let value ← inlineTable? entries
        return (value, rest)
    | c :: _, _ =>
      if c == '"' || c == '\'' then
        (quoted? cs).map fun (chars, rest) => (text (String.ofList chars), rest)
      else bare? cs
    | [], _ => none

/-- The items of an array up to its closing bracket, which may follow a comma. -/
def items? : Nat → Nat → List Char → Option (List Toml × List Char)
  | 0, _, _ => none
  | fuel + 1, depth, cs =>
    match skipLayout false cs with
    | ']' :: rest => some ([], rest)
    | cs => do
      let (item, rest) ← value? fuel depth cs
      match skipLayout false rest with
      | ',' :: rest =>
        let (items, rest) ← items? fuel depth rest
        return (item :: items, rest)
      | ']' :: rest => return ([item], rest)
      | _ => none

/-- The entries of an inline table up to its closing brace; there is at least one. -/
def entries? : Nat → Nat → List Char → Option (List (List String × String × Toml) × List Char)
  | 0, _, _ => none
  | fuel + 1, depth, cs => do
    let (path, key, value, rest) ← entry fuel depth cs
    match skipBlanks rest with
    | ',' :: rest =>
      let (entries, rest) ← entries? fuel depth rest
      return ((path, key, value) :: entries, rest)
    | '\x7d' :: rest => return ([(path, key, value)], rest)
    | _ => none

/-- A key, an equals sign and a value, and the rest. -/
def entry : Nat → Nat → List Char → Option (List String × String × Toml × List Char)
  | 0, _, _ => none
  | fuel + 1, depth, cs => do
    let (path, key, rest) ← key? fuel cs
    match rest with
    | '=' :: rest =>
      let (value, rest) ← value? fuel depth (skipBlanks rest)
      return (path, key, value, rest)
    | _ => none

end

/-- An entry, or the header of a table or of an element of a list of tables. -/
inductive Statement where
  | define (path : List String) (key : String) (value : Toml)
  | openTable (path : List String) (key : String)
  | openElement (path : List String) (key : String)

/-- A statement, which starts with neither blanks nor a comment, and the rest. -/
def statement? (fuel : Nat) : List Char → Option (Statement × List Char)
  | '[' :: '[' :: rest => do
    match ← key? fuel rest with
    | (path, key, ']' :: ']' :: rest) => return (.openElement path key, rest)
    | _ => none
  | '[' :: rest => do
    match ← key? fuel rest with
    | (path, key, ']' :: rest) => return (.openTable path key, rest)
    | _ => none
  | cs => do
    let (path, key, value, rest) ← entry fuel depthBound cs
    return (.define path key value, rest)

/-- The statements of a text. -/
def statements? : Nat → List Char → Option (List Statement)
  | 0, _ => none
  | fuel + 1, cs =>
    match skipLayout false cs with
    | [] => some []
    | cs => do
      let (statement, rest) ← statement? fuel cs
      let rest ← afterLine? rest
      let statements ← statements? fuel rest
      return statement :: statements

/-- The tables put together so far, and the path of the table that is open. -/
structure Assembly where
  items : Items := []
  opened : List String := []

/-- Go on with a statement. -/
def Assembly.step (a : Assembly) : Statement → Option Assembly
  | .define path key value => do
    let items ← a.items.defineAt a.opened path key value
    return { a with items }
  | .openTable path key => do
    let items ← a.items.openTable path key
    return ⟨items, path ++ [key]⟩
  | .openElement path key => do
    let items ← a.items.openElement path key
    return ⟨items, path ++ [key]⟩

/-- The text without a byte order mark. -/
def dropMark : List Char → List Char
  | '\uFEFF' :: cs => cs
  | cs => cs

/-- The table of a text.  It is no wrapping itself, but the values in it may be. -/
def parse? (source : String) : Option Toml := do
  let cs := dropMark source.toList
  let statements ← statements? (2 * cs.length + 2) cs
  let assembly ← statements.foldlM Assembly.step {}
  return table (← unwrapEntries? (toEntries assembly.items))

end TransferRules.Toml
