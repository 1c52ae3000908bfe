import TransferRules.Json.Basic

/-!
# Records in JSON

A record is written as an object with its fields, or as an array of the fields in the order of
their declaration.  In an object, fields that are not declared are skipped and a declared one
may not be repeated; in an array, fields may be left out only at the end.

## Main Definitions

* `Json.Record` — the fields that were given
* `Json.record?` — read a record with the given declared fields
* `Record.required?`, `Record.withDefault?`, `Record.optional?` — read one field
-/

namespace TransferRules.Json

/-- The fields given for a record, and whether they were given by position. -/
structure Record where
  positional : Bool
  fields : List (String × Json)

/-- Read a record whose declared fields are `names`. -/
def record? (names : List String) : Json → Option Record
  | object members =>
    let fields := members.filter fun member => names.contains member.1
    if (fields.map Prod.fst).eraseDups.length = fields.length then some ⟨false, fields⟩ else none
  | array items =>
    if items.length ≤ names.length then some ⟨true, names.zip items⟩ else none
  | _ => none

namespace Record

/-- The value given for a field. -/
def field? (r : Record) (name : String) : Option Json :=
  (r.fields.find? fun field => field.1 == name).map Prod.snd

/-- A field that has to be given. -/
def required? {α : Type} (r : Record) (name : String) (value? : Json → Option α) : Option α :=
  (r.field? name).bind value?

/-- A field that has a default. -/
def withDefault? {α : Type} (r : Record) (name : String) (default : α)
    (value? : Json → Option α) : Option α :=
  match r.field? name with
  | none => some default
  | some json => value? json

/-- A field that may be null.  It may also be left out of an object. -/
def optional? {α : Type} (r : Record) (name : String) (value? : Json → Option α) :
    Option (Option α) :=
  match r.field? name with
  | none => if r.positional then none else some none
  | some json => json.nullable? value?

end Record

end TransferRules.Json
