import TransferRules.Toml.Basic

/-!
# Putting tables together

A settings file spells its tables out in pieces: headers, dotted keys and single entries.  A
piece may go on with a table only where no earlier piece has finished it.  A table under a
header is finished for dotted keys; a table that dotted keys made is finished for headers; only
a table that was implied by a header of one of its subtables may still get a header.

## Main Definitions

* `Origin`, `Item`, `Items` — tables that are being put together
* `Items.define` — add an entry under a dotted key
* `Items.openTable`, `Items.openElement` — the two kinds of header
-/

namespace TransferRules.Toml

/-- How a table came about. -/
inductive Origin where
  /-- It has a header, or it is the root. -/
  | header
  /-- A subtable has a header. -/
  | implied
  /-- A dotted key goes through it. -/
  | dotted
  deriving Repr, DecidableEq

/-- What a key stands for while tables are put together: a finished value, a table, or a list of
tables under repeated headers, the last one first. -/
inductive Item where
  | value (value : Toml)
  | table (origin : Origin) (entries : List (String × Item))
  | tables (last : List (String × Item)) (earlier : List (List (String × Item)))
  deriving Repr, Inhabited

/-- The entries of a table that is being put together. -/
abbrev Items := List (String × Item)

mutual

/-- The value that an item has in the end. -/
def Item.toToml : Item → Toml
  | .value value => value
  | .table _ entries => .table (toEntries entries)
  | .tables last earlier => .array (toTables earlier ++ [.table (toEntries last)])

/-- The entries that a table has in the end. -/
def toEntries : List (String × Item) → List (String × Toml)
  | [] => []
  | (key, item) :: rest => (key, item.toToml) :: toEntries rest

/-- The tables of a list, the first one first. -/
def toTables : List (List (String × Item)) → List Toml
  | [] => []
  | entries :: rest => toTables rest ++ [.table (toEntries entries)]

end

namespace Items

/-- Change what a key stands for, if that is possible; a new key comes last. -/
def update (key : String) (f : Option Item → Option Item) : Items → Option Items
  | [] => (f none).map fun item => [(key, item)]
  | (k, item) :: rest =>
    if k = key then (f (some item)).map fun item => (k, item) :: rest
    else (update key f rest).map ((k, item) :: ·)

/-- Change the table at the end of a path.  Tables on the way are made where there are none; of
a list of tables the last one is meant.  A path of a dotted key does not go through tables with
headers. -/
def within (dotted : Bool) (f : Origin → Items → Option Items) :
    List String → Origin → Items → Option Items
  | [], origin, items => f origin items
  | key :: path, _, items =>
    update key
      (fun
        | none =>
          let origin := if dotted then Origin.dotted else Origin.implied
          (within dotted f path origin []).map (.table origin)
        | some (.value _) => none
        | some (.table origin entries) =>
          if dotted && origin == .header then none
          else (within dotted f path origin entries).map (.table origin)
        | some (.tables last earlier) =>
          (within dotted f path .header last).map fun last => .tables last earlier)
      items

/-- Add an entry under a dotted key, given by its path and its last part. -/
def define (path : List String) (key : String) (value : Toml) (items : Items) : Option Items :=
  within true
    (fun origin items =>
      if (origin == .dotted) == path.isEmpty then none
      else
        items.update key fun
          | none => some (.value value)
          | some _ => none)
    path .header items

/-- Add an entry to the table that was opened at a path. -/
def defineAt (opened : List String) (path : List String) (key : String) (value : Toml)
    (items : Items) : Option Items :=
  within false (fun _ items => items.define path key value) opened .header items

/-- Open the table of a header. -/
def openTable (path : List String) (key : String) (items : Items) : Option Items :=
  within false
    (fun _ items =>
      items.update key fun
        | none => some (.table .header [])
        | some (.table .implied entries) => some (.table .header entries)
        | _ => none)
    path .header items

/-- Open a new table in the list of a repeated header. -/
def openElement (path : List String) (key : String) (items : Items) : Option Items :=
  within false
    (fun _ items =>
      items.update key fun
        | none => some (.tables [] [])
        | some (.tables last earlier) => some (.tables [] (last :: earlier))
        | _ => none)
    path .header items

end Items

/-- The table of entries under dotted keys, none of which may repeat another. -/
def inlineTable? (entries : List (List String × String × Toml)) : Option Toml :=
  (entries.foldlM (fun (items : Items) (path, key, value) => items.define path key value) []).map
    fun items => .table (toEntries items)

end TransferRules.Toml
