import TransferRules.Toml.Basic

/-!
# Wrapped values

A table in a settings file may be the wrapping of a value: a table with one certain entry stands
for the value of this entry, and what else it holds does not count.  The label of a wrapping is
given by the program that reads it, so a file must not have one.

## Main Definitions

* `Toml.unwrap?` — a value without wrappings
-/

namespace TransferRules.Toml

/-- The key of a wrapped value. -/
def wrappedKey : String := "___figment_value_value"

/-- The key of the label of a wrapping. -/
def labelKey : String := "___figment_value_id"

/-- What a table with some entries stands for. -/
def ofWrapping? (entries : List (String × Toml)) : Option Toml :=
  if (find? labelKey entries).isSome then none
  else some ((find? wrappedKey entries).getD (table entries))

mutual

/-- A value without the wrappings in it. -/
def unwrap? : Toml → Option Toml
  | array items => (unwrapAll? items).map array
  | table entries => (unwrapEntries? entries).bind ofWrapping?
  | value => some value

/-- The items of an array without the wrappings in them. -/
def unwrapAll? : List Toml → Option (List Toml)
  | [] => some []
  | item :: items => do return (← unwrap? item) :: (← unwrapAll? items)

/-- The entries of a table without the wrappings in their values. -/
def unwrapEntries? : List (String × Toml) → Option (List (String × Toml))
  | [] => some []
  | (key, value) :: entries => do return (key, ← unwrap? value) :: (← unwrapEntries? entries)

end

end TransferRules.Toml
