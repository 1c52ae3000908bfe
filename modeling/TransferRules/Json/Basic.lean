/-!
# JSON values

Linguistic databases are JSON files, and reports can be asked for as JSON.  A value keeps the
members of an object in the order of the text, repeated ones included, because whether a
repetition matters depends on what is read: a record refuses it, a map keeps the last one.

## Design Notes

Only non-negative integers are ever read as numbers, so every other number keeps its text.
`illFormed` is a string, or an object with a key, that holds one half of a surrogate pair: it
has the syntax of JSON and may stand where it is skipped, but it has no value.
-/

namespace TransferRules

/-- A JSON value. -/
inductive Json where
  | null
  | boolean (value : Bool)
  | natural (value : Nat)
  | number (text : String)
  | string (text : String)
  | array (items : List Json)
  | object (members : List (String × Json))
  | illFormed
  deriving Repr, Inhabited

namespace Json

/-- The text of a string value. -/
def string? : Json → Option String
  | string text => some text
  | _ => none

/-- The truth value of a boolean value. -/
def boolean? : Json → Option Bool
  | boolean value => some value
  | _ => none

/-- The value of a non-negative integer below `bound`. -/
def natural? (bound : Nat) : Json → Option Nat
  | natural value => if value < bound then some value else none
  | _ => none

/-- The items of an array, each read by `item?`. -/
def list? {α : Type} (item? : Json → Option α) : Json → Option (List α)
  | array items => items.mapM item?
  | _ => none

/-- A value that may be null. -/
def nullable? {α : Type} (value? : Json → Option α) : Json → Option (Option α)
  | null => some none
  | json => (value? json).map some

/-- A pair of strings, written as an array of two. -/
def stringPair? : Json → Option (String × String)
  | array [string a, string b] => some (a, b)
  | _ => none

/-- The name of one of several alternatives that hold nothing: the name itself, or an object
whose only member has that name and the value null. -/
def alternative? : Json → Option String
  | string name => some name
  | object [(name, null)] => some name
  | _ => none

/-- The last member of an object with the given key. -/
def member? (key : String) : Json → Option Json
  | object members => (members.findRev? fun member => member.1 == key).map Prod.snd
  | _ => none

/-- The null value for nothing, and `f` of something. -/
def ofOption {α : Type} (f : α → Json) : Option α → Json
  | none => null
  | some a => f a

/-- An array of what `f` makes of the items. -/
def ofList {α : Type} (f : α → Json) (items : List α) : Json := array (items.map f)

/-- An array of strings. -/
def ofStrings (texts : List String) : Json := ofList string texts

end Json

end TransferRules
