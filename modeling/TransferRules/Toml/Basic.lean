/-!
# Values of settings files

Settings come from TOML files and from environment variables.  Both give the same kind of
values, so that one can be laid over the other.

## Main Definitions

* `Toml` — a value
* `Toml.overlay` — one value laid over another
-/

namespace TransferRules

/-- A value of a settings file. -/
inductive Toml where
  | boolean (value : Bool)
  | integer (value : Int)
  | text (value : String)
  /-- A number with a fraction or an exponent: no setting has such a value. -/
  | other
  | array (items : List Toml)
  | table (entries : List (String × Toml))
  deriving Repr, Inhabited

namespace Toml

/-- Put an entry in a table: a new key comes last, an old one keeps its place. -/
def putEntry (key : String) (value : Toml) : List (String × Toml) → List (String × Toml)
  | [] => [(key, value)]
  | (k, v) :: rest => if k = key then (k, value) :: rest else (k, v) :: putEntry key value rest

/-- The value of a key. -/
def find? (key : String) (entries : List (String × Toml)) : Option Toml :=
  (entries.find? fun entry => entry.1 == key).map Prod.snd

mutual

/-- The value `upper` laid over `lower`: tables are joined, anything else replaces what is below
it. -/
def overlay (lower : Toml) : (upper : Toml) → Toml
  | table uppers =>
    match lower with
    | table lowers => table (overlayAll lowers uppers)
    | _ => table uppers
  | upper => upper

/-- Entries laid over the entries of a table. -/
def overlayAll (lowers : List (String × Toml)) : List (String × Toml) → List (String × Toml)
  | [] => lowers
  | (key, value) :: rest =>
    let value :=
      match find? key lowers with
      | some below => overlay below value
      | none => value
    overlayAll (putEntry key value lowers) rest

end

end Toml

end TransferRules
